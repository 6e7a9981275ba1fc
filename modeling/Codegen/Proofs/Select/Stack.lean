import Codegen.Proofs.Liveness
import Codegen.Proofs.Select.Emission
import Codegen.Proofs.Select.Order

/-! The registers of generated code are a stack. An expression writes nothing below the top it
starts from, it leaves its value between that top and the new one, and it reads only what it has
written itself. -/
namespace Codegen

def defsOf (code : List Instr) : List Temp :=
  code.flatMap Instr.defs

def tempsOf (code : List Instr) : List Temp :=
  code.flatMap Instr.temps

@[simp] theorem defsOf_append (code code' : List Instr) :
    defsOf (code ++ code') = defsOf code ++ defsOf code' :=
  List.flatMap_append

@[simp] theorem tempsOf_append (code code' : List Instr) :
    tempsOf (code ++ code') = tempsOf code ++ tempsOf code' :=
  List.flatMap_append

theorem Instr.defs_subset_temps (x : Instr) : x.defs ⊆ x.temps :=
  fun _ defined => temps_iff_defs_or_uses.mpr (.inl defined)

theorem Instr.consulted_subset_temps (access : Access) (y : Operand) :
    consulted (access, y) ⊆ y.temps :=
  fun _ used => mem_temps_iff.mpr (.inr used)

theorem Instr.uses_subset_temps (x : Instr) : x.uses ⊆ x.temps :=
  fun _ used => temps_iff_defs_or_uses.mpr (.inr used)

/-- Whatever code reads is known before, or has been written by the code before. -/
def Fed (known : List Temp) : List Instr → Prop
  | [] => True
  | x :: code => x.uses ⊆ known ∧ Fed (known ++ x.defs) code

section Fed

variable {known known' : List Temp} {code code' : List Instr}

theorem append_subset_append {written : List Temp} (more : known ⊆ known') :
    known ++ written ⊆ known' ++ written :=
  List.append_subset.mpr ⟨List.Subset.trans more (List.subset_append_left _ _),
    List.subset_append_right _ _⟩

theorem Fed.mono (fed : Fed known code) (more : known ⊆ known') : Fed known' code := by
  induction code generalizing known known' with
  | nil => trivial
  | cons x code ih => exact ⟨List.Subset.trans fed.1 more, ih fed.2 (append_subset_append more)⟩

theorem fed_append :
    Fed known (code ++ code') ↔ Fed known code ∧ Fed (known ++ defsOf code) code' := by
  induction code generalizing known with
  | nil => simp [Fed, defsOf]
  | cons x code ih => simp [Fed, defsOf, ih, and_assoc]

/-- The instruction at a position reads what was known or is written at an earlier one. -/
theorem Fed.earlier (fed : Fed known code) {i : Nat} {x : Instr} (there : code[i]? = some x)
    {r : Temp} (used : r ∈ x.uses) :
    r ∈ known ∨ ∃ j < i, ∃ y, code[j]? = some y ∧ r ∈ y.defs := by
  induction code generalizing known i with
  | nil => simp at there
  | cons first code ih =>
    cases i with
    | zero =>
      cases there
      exact .inl (fed.1 used)
    | succ i =>
      rcases ih fed.2 there with before | ⟨j, earlier, y, found, written⟩
      · rcases List.mem_append.mp before with before | written
        · exact .inl before
        · exact .inr ⟨0, Nat.succ_pos i, first, rfl, written⟩
      · exact .inr ⟨j + 1, Nat.succ_lt_succ earlier, y, found, written⟩

end Fed

/-- From `before` registers on, code comes to `after` of them, the last of which it mentions. It
mentions no others, and writes none below `low`. -/
structure Grows (low before after : Nat) (code : List Instr) : Prop where
  more : before ≤ after
  writes : ∀ r ∈ defsOf code, ∃ n, low ≤ n ∧ r = .numbered n
  inside : ∀ r ∈ tempsOf code, ∃ n < after, r = .numbered n
  reached : after = before ∨ ∃ r ∈ tempsOf code, r = .numbered (after - 1) ∧ 0 < after

section Grows

variable {low low' before middle after : Nat} {code code' : List Instr}

theorem grows_nil (low before : Nat) : Grows low before before [] :=
  ⟨Nat.le_refl _, by simp [defsOf], by simp [tempsOf], .inl rfl⟩

theorem Grows.mono (grows : Grows low' before after code) (lower : low ≤ low') :
    Grows low before after code where
  more := grows.more
  writes r written := by
    obtain ⟨n, above, same⟩ := grows.writes r written
    exact ⟨n, lower.trans above, same⟩
  inside := grows.inside
  reached := grows.reached

theorem Grows.append (first : Grows low before middle code)
    (second : Grows low middle after code') : Grows low before after (code ++ code') where
  more := first.more.trans second.more
  writes r written := by
    rw [defsOf_append, List.mem_append] at written
    exact written.elim (first.writes r) (second.writes r)
  inside r mentioned := by
    rw [tempsOf_append, List.mem_append] at mentioned
    rcases mentioned with mentioned | mentioned
    · obtain ⟨n, small, same⟩ := first.inside r mentioned
      exact ⟨n, small.trans_le second.more, same⟩
    · exact second.inside r mentioned
  reached := by
    simp only [tempsOf_append, List.mem_append]
    rcases second.reached with same | ⟨r, mentioned, last⟩
    · subst same
      rcases first.reached with same | ⟨r, mentioned, last⟩
      · exact .inl same
      · exact .inr ⟨r, .inl mentioned, last⟩
    · exact .inr ⟨r, .inr mentioned, last⟩

end Grows

namespace Select

/-- The registers of an operand hold something, and are numbered from `low` up to `high`. -/
def Rests (low high : Nat) (known : List Temp) (x : Operand) : Prop :=
  ∀ r ∈ x.temps, r ∈ known ∧ ∃ n, r = .numbered n ∧ low ≤ n ∧ n < high

structure Stacked (low : Nat) (known : List Temp) (s t : Selection) (code : List Instr)
    (xs : List Operand) : Prop where
  rises : s.top ≤ t.top
  room : t.top ≤ t.temps
  fed : Fed known code
  grows : Grows low s.temps t.temps code
  rests : ∀ x ∈ xs, Rests low t.top (known ++ defsOf code) x

section Stacked

variable {low low' high high' n : Nat} {known known' : List Temp} {s t u : Selection}
  {code code' own : List Instr} {x : Operand} {xs ys : List Operand} {v v' : Option Value}
  {z : Instr}

theorem Rests.mono (rests : Rests low' high known x) (lower : low ≤ low') (higher : high ≤ high')
    (more : known ⊆ known') : Rests low high' known' x := by
  intro r mentioned
  obtain ⟨held, n, same, above, below⟩ := rests r mentioned
  exact ⟨more held, n, same, lower.trans above, below.trans_le higher⟩

theorem rests_of_temps_nil (none : x.temps = []) : Rests low high known x := by
  intro r mentioned
  rw [none] at mentioned
  contradiction

theorem rests_register :
    Rests low high known (register n) ↔ .numbered n ∈ known ∧ low ≤ n ∧ n < high := by
  constructor
  · intro rests
    obtain ⟨held, m, same, above, below⟩ := rests (.numbered n) (by simp [register, Operand.temps])
    obtain rfl : n = m := congrArg Temp.key same
    exact ⟨held, above, below⟩
  · rintro ⟨held, above, below⟩ r mentioned
    obtain rfl : r = .numbered n := by simpa [register, Operand.temps] using mentioned
    exact ⟨held, n, rfl, above, below⟩

theorem rests_address {object : Nat} {symbol : Option Symbol} {base index : Operand} {scale : Int}
    {offset : Int64} (inBase : Rests low high known base) (inIndex : Rests low high known index) :
    Rests low high known (.addr object symbol base index scale offset) := by
  intro r mentioned
  exact (List.mem_append.mp mentioned).elim (inBase r) (inIndex r)

theorem rests_deref {object : Nat} :
    Rests low high known (Value.deref object n).operand ↔ Rests low high known (register n) := by
  simp [Rests, Value.operand, Operand.temps]

theorem stacked_nil (known : List Temp) (room : s.top ≤ s.temps) : Stacked low known s s [] [] :=
  ⟨Nat.le_refl _, room, trivial, grows_nil _ _, by simp⟩

theorem stacked_of_rests (rests : Rests low s.top known x) (room : s.top ≤ s.temps) :
    Stacked low known s s [] [x] :=
  { stacked_nil known room with rests := by simpa [defsOf] using rests }

theorem Stacked.mono (stacked : Stacked low' known s t code xs) (lower : low ≤ low')
    (more : known ⊆ known') : Stacked low known' s t code xs where
  rises := stacked.rises
  room := stacked.room
  fed := stacked.fed.mono more
  grows := stacked.grows.mono lower
  rests x member :=
    (stacked.rests x member).mono lower (Nat.le_refl _) (append_subset_append more)

/-- What was left on the stack is still there. -/
theorem Stacked.append (first : Stacked low known s t code xs)
    (second : Stacked low (known ++ defsOf code) t u code' ys) :
    Stacked low known s u (code ++ code') (xs ++ ys) where
  rises := first.rises.trans second.rises
  room := second.room
  fed := fed_append.mpr ⟨first.fed, second.fed⟩
  grows := first.grows.append second.grows
  rests x member := by
    rw [defsOf_append, ← List.append_assoc]
    rcases List.mem_append.mp member with member | member
    · exact (first.rests x member).mono (Nat.le_refl _) second.rises (List.subset_append_left _ _)
    · exact second.rests x member

/-- An expression after another one takes nothing from it. -/
theorem Stacked.next (first : Stacked low known s t code xs) (above : low ≤ s.top)
    (second : Stacked t.top [] t u code' ys) :
    Stacked low known s u (code ++ code') (xs ++ ys) :=
  first.append (second.mono (above.trans first.rises) (List.nil_subset _))

theorem Stacked.only (stacked : Stacked low known s t code xs) (ys : List Operand)
    (fewer : ys ⊆ xs) : Stacked low known s t code ys :=
  { stacked with rests := fun x member => stacked.rests x (fewer member) }

/-- An instruction on what is there. -/
theorem Stacked.put (stacked : Stacked low known s t code xs)
    (slots : ∀ y ∈ z.operands, Rests low t.temps (known ++ defsOf code) y.2) :
    Stacked low known s (t.put z) (code ++ [z]) xs := by
  have mentioned : ∀ r ∈ z.temps, r ∈ known ++ defsOf code ∧
      ∃ n, r = .numbered n ∧ low ≤ n ∧ n < t.temps := by
    intro r member
    obtain ⟨y, slot, member⟩ := List.mem_flatMap.mp member
    exact slots y slot r member
  refine ⟨stacked.rises, stacked.room, fed_append.mpr ⟨stacked.fed, ?_, trivial⟩,
    stacked.grows.append ⟨Nat.le_refl _, ?_, ?_, .inl rfl⟩, fun x member => ?_⟩
  · intro r used
    obtain ⟨⟨access, y⟩, slot, used⟩ := List.mem_flatMap.mp used
    exact (slots _ slot r (Instr.consulted_subset_temps access y used)).1
  · intro r written
    have member : r ∈ z.defs := by simpa [defsOf] using written
    obtain ⟨_, n, same, above, _⟩ := mentioned r (z.defs_subset_temps member)
    exact ⟨n, above, same⟩
  · intro r member
    obtain ⟨_, n, same, _, below⟩ := mentioned r (by simpa [tempsOf] using member)
    exact ⟨n, below, same⟩
  · exact (stacked.rests x member).mono (Nat.le_refl _) (Nat.le_refl _)
      (by simp [← List.append_assoc])

/-- An instruction that writes the register at the top, and else works on what is there. -/
theorem Stacked.take (stacked : Stacked low known s t code xs) (above : low ≤ t.top)
    (writes : (.write, register t.top) ∈ z.operands)
    (slots : ∀ y ∈ z.operands, y = (.write, register t.top) ∨
      Rests low t.temps (known ++ defsOf code) y.2) :
    Stacked low known s (t.take.put z) (code ++ [z]) (register t.top :: xs) := by
  have defined : .numbered t.top ∈ z.defs :=
    List.mem_flatMap.mpr ⟨_, writes, by simp [register, Instr.written]⟩
  have mentioned : ∀ r ∈ z.temps, r = .numbered t.top ∨
      ∃ n, r = .numbered n ∧ low ≤ n ∧ n < t.temps := by
    intro r member
    obtain ⟨y, slot, member⟩ := List.mem_flatMap.mp member
    rcases slots y slot with rfl | rests
    · exact .inl (by simpa [register, Operand.temps] using member)
    · exact .inr (rests r member).2
  have room := stacked.room
  have rises := stacked.rises
  refine ⟨Nat.le_succ_of_le rises, Nat.le_max_right _ _,
    fed_append.mpr ⟨stacked.fed, ?_, trivial⟩,
    stacked.grows.append ⟨Nat.le_max_left _ _, ?_, ?_, ?_⟩, fun x member => ?_⟩
  · intro r used
    obtain ⟨⟨access, y⟩, slot, used⟩ := List.mem_flatMap.mp used
    rcases slots _ slot with same | rests
    · cases same
      simp [register, Instr.consulted] at used
    · exact (rests r (Instr.consulted_subset_temps access y used)).1
  · intro r written
    rcases mentioned r (z.defs_subset_temps (by simpa [defsOf] using written)) with
      rfl | ⟨n, same, low_le, _⟩
    · exact ⟨t.top, above, rfl⟩
    · exact ⟨n, low_le, same⟩
  · intro r member
    rcases mentioned r (by simpa [tempsOf] using member) with rfl | ⟨n, same, _, below⟩
    · exact ⟨t.top, Nat.lt_of_lt_of_le (Nat.lt_succ_self _) (Nat.le_max_right _ _), rfl⟩
    · exact ⟨n, below.trans_le (Nat.le_max_left _ _), same⟩
  · by_cases full : t.top < t.temps
    · exact .inl (Nat.max_eq_left full)
    · have last : t.take.temps = t.top + 1 := Nat.max_eq_right (by omega)
      refine .inr ⟨.numbered t.top, ?_, ?_⟩
      · simpa [tempsOf] using z.defs_subset_temps defined
      · change _ = Temp.numbered (t.take.temps - 1) ∧ 0 < t.take.temps
        rw [last]
        exact ⟨rfl, Nat.succ_pos _⟩
  · rcases List.mem_cons.mp member with rfl | member
    · refine rests_register.mpr ⟨?_, above, Nat.lt_succ_self _⟩
      simp [defsOf, defined]
    · exact (stacked.rests x member).mono (Nat.le_refl _) (Nat.le_succ _)
        (by simp [← List.append_assoc])

/-- Registers are freed, and what is kept of the operands was below them. -/
theorem Stacked.free {top : Nat} (stacked : Stacked low known s t code xs) (ys : List Operand)
    (rises : s.top ≤ top) (falls : top ≤ t.top)
    (rests : ∀ y ∈ ys, Rests low top (known ++ defsOf code) y) :
    Stacked low known s (t.free top) code ys :=
  ⟨rises, falls.trans stacked.room, stacked.fed, stacked.grows, rests⟩

/-! ### Values -/

theorem Loads.stacked (loads : Loads v s n t own) (rests : Rests low s.top known (operand v))
    (above : low ≤ s.top) (room : s.top ≤ s.temps) :
    Stacked low known s t own [register n] := by
  cases loads with
  | held n s => exact stacked_of_rests rests room
  | fetched s none =>
    refine (stacked_nil known room).take above (by simp [Instr.operands]) fun y slot => ?_
    rcases List.mem_pair.mp slot with rfl | rfl
    · exact .inl rfl
    · exact .inr (rests_of_temps_nil none)
  | read object n s =>
    have target := rests_deref.mp rests
    refine (stacked_of_rests target room).put fun y slot => ?_
    have held := target.mono (Nat.le_refl low) room (List.subset_append_left known (defsOf []))
    rcases List.mem_pair.mp slot with rfl | rfl
    · exact held
    · exact rests_deref.mpr held

/-- A number that stays where it is stays in the same register. -/
theorem Loads.register_mem (loads : Loads v s n t own) (number : kindOf v = .number)
    (placed : ∀ c, v ≠ some (.imm c)) : .numbered n ∈ (operand v).temps := by
  cases loads with
  | held n s => simp [operand, Value.operand, register, Operand.temps]
  | @fetched value s none =>
    cases value with
    | imm c => exact absurd rfl (placed c)
    | cell object symbol => contradiction
    | temp n | deref object n => simp [Value.operand, register, Operand.temps] at none
  | read object n s => simp [operand, Value.operand, register, Operand.temps]

theorem Settles.stacked (settles : Settles v s v' t own)
    (rests : Rests low s.top known (operand v)) (above : low ≤ s.top) (room : s.top ≤ s.temps) :
    Stacked low known s t own [operand v'] ∧ ∀ c, v' ≠ some (.imm c) := by
  cases settles with
  | number c s =>
    refine ⟨(stacked_nil known room).take above (by simp [Instr.operands]) fun y slot => ?_,
      by simp⟩
    rcases List.mem_pair.mp slot with rfl | rfl
    · exact .inl rfl
    · exact .inr (rests_of_temps_nil rfl)
  | other s placed => exact ⟨stacked_of_rests rests room, placed⟩

theorem Indexes.stacked {j : Operand} (indexes : Indexes v s j t own)
    (rests : Rests low s.top known (operand v)) (above : low ≤ s.top) (room : s.top ≤ s.temps) :
    Stacked low known s t own [j] := by
  cases indexes with
  | none s => exact stacked_of_rests (rests_of_temps_nil rfl) room
  | some loads => exact loads.stacked rests above room

/-- Only the heights of the stack count. -/
theorem Stacked.congr (stacked : Stacked low known s t code xs) (s' t' : Selection)
    (top : s'.top = s.top) (temps : s'.temps = s.temps) (top' : t'.top = t.top)
    (temps' : t'.temps = t.temps) : Stacked low known s' t' code xs := by
  constructor
  · rw [top, top']
    exact stacked.rises
  · rw [top', temps']
    exact stacked.room
  · exact stacked.fed
  · rw [temps, temps']
    exact stacked.grows
  · rw [top']
    exact stacked.rests

theorem Stacked.load (stacked : Stacked low known s t code xs) (above : low ≤ s.top)
    (rests : Rests low t.top (known ++ defsOf code) (operand v)) (loads : Loads v t n u own) :
    Stacked low known s u (code ++ own) (register n :: xs) :=
  (stacked.append (loads.stacked rests (above.trans stacked.rises) stacked.room)).only _ (by simp)

/-- Operands of an instruction that are there in any case. -/
theorem Stacked.slot (stacked : Stacked low known s t code xs)
    (there : x ∈ xs ∨ x.temps = []) : Rests low t.temps (known ++ defsOf code) x := by
  rcases there with member | none
  · exact (stacked.rests x member).mono (Nat.le_refl _) stacked.room (List.Subset.refl _)
  · exact rests_of_temps_nil none

theorem Stacked.putOn (stacked : Stacked low known s t code xs)
    (slots : ∀ y ∈ z.operands, y.2 ∈ xs ∨ y.2.temps = []) :
    Stacked low known s (t.put z) (code ++ [z]) xs :=
  stacked.put fun y slot => stacked.slot (slots y slot)

/-- A statement leaves nothing. -/
theorem Stacked.done (stacked : Stacked low known s t code xs) :
    Stacked low known s t code [operand none] :=
  { stacked with rests := by simpa using rests_of_temps_nil rfl }

end Stacked

theorem binaryInstr?_operands {op : BinaryOp} {target source : Operand} {z : Instr}
    (found : binaryInstr? op target source = some z) :
    z.operands = [(.update, target), (.read, source)] := by
  cases op <;> cases found <;> rfl

theorem unaryInstr?_operands {op : UnaryOp} {target : Operand} {z : Instr}
    (found : unaryInstr? op target = some z) :
    ∀ y ∈ z.operands, y.2 = target ∨ y.2.temps = [] := by
  cases op <;> cases found <;> simp [Instr.operands, Operand.temps]

theorem addressInstr_operands (loads : Bool) (object n : Nat) (j : Operand) (a : Address) :
    (addressInstr loads object n j a).operands = [(.write, register n),
      (.read, .addr object none (register n) j a.scale a.offset)] := by
  cases loads <;> rfl

section Runs

variable {addressing used : Bool} {xs : List Node} {s t : Selection} {vs : List (Option Value)}
  {log : List Emitted}

/-- Code for nodes keeps to the stack from the top on. -/
theorem Selects.stacked (selects : Selects addressing used xs s vs t log)
    (room : s.top ≤ s.temps) :
    Stacked s.top [] s t (log.map Emitted.instr) (vs.map operand) := by
  have above (s : Selection) : s.top ≤ s.top := Nat.le_refl _
  induction selects with
  | nil s => exact stacked_nil [] room
  | cons first second ih ih' =>
    rw [List.map_append, List.map_cons]
    exact (ih room).next (above _) (ih' (ih room).room)
  | const used c s => exact stacked_of_rests (rests_of_temps_nil rfl) room
  | addr used symbol s =>
    exact (stacked_of_rests (rests_of_temps_nil rfl) room).congr _ _ rfl rfl rfl rfl
  | text used symbol s | var used symbol s =>
    rw [map_instr_emitted]
    refine ((stacked_nil [] room).take (above s) (by simp [Instr.operands]) fun y slot => ?_).congr
      _ _ rfl rfl rfl rfl
    rcases List.mem_pair.mp slot with rfl | rfl
    · exact .inl rfl
    · exact .inr (rests_of_temps_nil rfl)
  | mem absent part loads ih =>
    have loaded := (ih room).load (above _) ((ih room).rests _ (by simp)) loads
    rw [List.map_append, map_instr_emitted]
    refine (loaded.free _ loaded.rises (Nat.le_refl _) fun y member => ?_).congr _ _ rfl rfl rfl rfl
    cases List.mem_singleton.mp member
    exact rests_deref.mpr (loaded.rests _ (by simp))
  | @fused used x y a s t u w b rest n j log own own' found parts loads indexes ih =>
    have before := ih room
    have loaded := before.load (above _) (before.rests _ (by simp)) loads
    have index : Rests s.top u.top ([] ++ defsOf (log.map Emitted.instr ++ own))
        (operand rest.head?.join) := by
      cases rest with
      | nil => exact rests_of_temps_nil rfl
      | cons i rest => exact loaded.rests _ (by simp)
    have both := loaded.append (indexes.stacked index loaded.rises loaded.room)
    have base := both.rests (register n) (by simp)
    have done := both.put (z := addressInstr x.isMem w.objects n j a) fun y slot => by
      rw [addressInstr_operands] at slot
      rcases List.mem_pair.mp slot with rfl | rfl
      · exact both.slot (.inl (by simp))
      · exact rests_address (both.slot (.inl (by simp))) (both.slot (.inl (by simp)))
    -- the base may have come to a register after the index, and then is not at the old top
    obtain ⟨held, low, high⟩ := rests_register.mp base
    simp only [List.map_append, map_instr_emitted, ← List.append_assoc, if_pos low]
    refine (done.congr _ (w.make.put _) rfl rfl rfl rfl).free _ (by omega) high fun y member => ?_
    cases List.mem_singleton.mp member
    refine rests_register.mpr ⟨?_, low, Nat.lt_succ_self n⟩
    rw [defsOf_append]
    simp only [List.nil_append] at held ⊢
    exact List.mem_append_left _ held
  | immediate absent found part number loads instr ih =>
    have loaded := (ih room).load (above _) ((ih room).rests _ (by simp)) loads
    simp only [List.map_append, map_instr_emitted, ← List.append_assoc]
    refine (loaded.putOn fun y slot => ?_).only _ (by simp [operand, Value.operand])
    rw [binaryInstr?_operands instr] at slot
    rcases List.mem_pair.mp slot with rfl | rfl
    · exact .inl (by simp)
    · exact .inr rfl
  | unary part loads instr ih =>
    have loaded := (ih room).load (above _) ((ih room).rests _ (by simp)) loads
    simp only [List.map_append, map_instr_emitted, ← List.append_assoc]
    refine (loaded.putOn fun y slot => ?_).only _ (by simp [operand, Value.operand])
    rcases unaryInstr?_operands instr y slot with same | none
    · exact .inl (by simp [same])
    · exact .inr none
  | @binary used op left right s t t' u w l l' r n z log log' own own' absent found inLeft settles
      inRight number loads instr ih ih' =>
    have before := ih room
    obtain ⟨settled, placed⟩ :=
      settles.stacked (before.rests _ (by simp)) before.rises before.room
    have first := (before.append settled).only [operand l'] (by simp)
    have second := first.next (above _) (ih' first.room)
    have loaded := second.load (above _) (second.rests _ (by simp)) loads
    have done := loaded.putOn (z := z) fun y slot => by
      rw [binaryInstr?_operands instr] at slot
      rcases List.mem_pair.mp slot with rfl | rfl <;> exact .inl (by simp)
    -- the left operand was on the stack before the right one
    obtain ⟨held, m, same, low, high⟩ :=
      first.rests _ (by simp) _ (loads.register_mem number placed)
    obtain rfl : n = m := congrArg Temp.key same
    simp only [List.map_append, map_instr_emitted, ← List.append_assoc]
    refine done.free _ first.rises ((ih' first.room).rises.trans ?_) fun y member => ?_
    · exact (loads.stacked (second.rests (operand l') (by simp)) second.rises second.room).rises
    · cases List.mem_singleton.mp member
      refine rests_register.mpr ⟨?_, low, high⟩
      simp only [defsOf_append, List.nil_append, List.mem_append] at held ⊢
      exact .inl (.inl (.inl held))
  | @call callee args s t vs log part ih =>
    have before := ih room
    rw [List.map_append, map_instr_emitted]
    refine (before.free [] (above s) before.rises (by simp)).take (above s)
      (by simp [Instr.operands, Selection.free]) fun y slot => ?_
    rcases List.mem_append.mp slot with slot | slot
    · obtain ⟨x, member, rfl⟩ := List.mem_map.mp slot
      exact .inr (before.slot (.inl member))
    · exact .inl (List.mem_singleton.mp slot)
  | @callStatement callee args s t vs log part ih =>
    have before := ih room
    rw [List.map_append, map_instr_emitted]
    refine ((before.free [] (above s) before.rises (by simp)).put fun y slot => ?_).done
    rcases List.mem_append.mp slot with slot | slot
    · obtain ⟨x, member, rfl⟩ := List.mem_map.mp slot
      exact before.slot (.inl member)
    · cases List.mem_singleton.mp slot
      exact rests_of_temps_nil rfl
  | @assignSymbol used target source symbol s t v log place part ih =>
    have before := (ih room).congr s _ rfl rfl rfl rfl
    rw [List.map_append, map_instr_emitted]
    refine (before.putOn fun y slot => ?_).done
    rcases List.mem_pair.mp slot with rfl | rfl
    · exact .inr rfl
    · exact .inl (by simp)
  | @assign used target source s t u w l v n log log' own inTarget loads inSource ih ih' =>
    have loaded := ((ih room).load (above _) ((ih room).rests _ (by simp)) loads).congr
      _ u.make rfl rfl rfl rfl
    have before := loaded.next (above _) (ih' loaded.room)
    simp only [List.map_append, map_instr_emitted, ← List.append_assoc]
    refine (before.put fun y slot => ?_).done
    rcases List.mem_pair.mp slot with rfl | rfl
    · exact rests_deref.mpr (before.slot (.inl (by simp)))
    · exact before.slot (.inl (by simp))
  | label used name s | jump used target s =>
    rw [map_instr_emitted]
    exact ((stacked_nil [] room).put (by simp [Instr.operands])).done
  | retNothing used s =>
    rw [map_instr_emitted]
    exact ((stacked_nil [] room).putOn (by simp [Instr.operands, Operand.temps])).done
  | branch ifTrue ifFalse part ih | ret present part ih =>
    rw [List.map_append, map_instr_emitted]
    exact ((ih room).putOn (by simp [Instr.operands])).done

end Runs

end Select

/-! ### Registers by number -/

/-- A set of the numbers of registers has a register exactly if the registers do. -/
theorem ofList?_numbered (rs : List Temp) (numbered : ∀ r ∈ rs, ∃ n, r = .numbered n) :
    ∃ set, BitSet.ofList? (rs.map Temp.id) = some set ∧
      ∀ n, set.contains n = true ↔ .numbered n ∈ rs := by
  have ids : rs.map Temp.id = (rs.map Temp.key).map Int.ofNat := by
    rw [List.map_map]
    refine List.map_congr_left fun r member => ?_
    obtain ⟨n, rfl⟩ := numbered r member
    rfl
  refine ⟨_, by rw [ids, BitSet.ofList?_eq], fun n => ?_⟩
  simp only [BitSet.contains_foldl_insert, BitSet.contains_empty, Bool.or_false,
    decide_eq_true_eq, List.mem_map]
  constructor
  · rintro ⟨r, member, rfl⟩
    obtain ⟨n, rfl⟩ := numbered r member
    exact member
  · intro member
    exact ⟨_, member, rfl⟩

/-- What an instruction reads is in the sets of those before it. -/
theorem Fed.useSet? {code : List Instr} (fed : Fed [] code)
    (numbered : ∀ r ∈ tempsOf code, ∃ n, r = .numbered n) {i : Nat} {x : Instr}
    (there : code[i]? = some x) :
    ∃ used, x.useSet? = some used ∧ ∀ n, used.contains n = true →
      ∃ j < i, ∃ y written, code[j]? = some y ∧ y.defSet? = some written ∧
        written.contains n = true := by
  have numberedIn {j : Nat} {y : Instr} (there : code[j]? = some y) (r : Temp)
      (mentioned : r ∈ y.temps) : ∃ n, r = .numbered n :=
    numbered r (List.mem_flatMap.mpr ⟨y, List.mem_of_getElem? there, mentioned⟩)
  obtain ⟨used, made, contains⟩ := ofList?_numbered x.uses fun r member =>
    numberedIn there r (x.uses_subset_temps member)
  refine ⟨used, made, fun n held => ?_⟩
  rcases fed.earlier there ((contains n).mp held) with known | ⟨j, earlier, y, found, defined⟩
  · contradiction
  · obtain ⟨written, made', contains'⟩ := ofList?_numbered y.defs fun r member =>
      numberedIn found r (y.defs_subset_temps member)
    exact ⟨j, earlier, y, written, found, made', (contains' n).mpr defined⟩

namespace Environment

variable (env : Environment) {k : Nat}

/-- An instruction changes only the registers that it defines. -/
theorem registers_effect {x : Instr} (other : ∀ r ∈ x.defs, r.key ≠ k) (m : Machine) :
    (env.effect x m).registers k = m.registers k := by
  cases x with
  | call callee args result =>
    cases callee with
    | none => rfl
    | some callee => exact Instr.registers_perform env.toWorld (fun _ => env.call callee) other m
  | _ => exact Instr.registers_perform env.toWorld (fun _ _ m => (0, m)) other m

theorem registers_execute {code : List Instr} (other : ∀ r ∈ defsOf code, r.key ≠ k)
    (m : Machine) : (env.execute code m).registers k = m.registers k := by
  induction code generalizing m with
  | nil => rfl
  | cons x code ih =>
    have first : ∀ r ∈ x.defs, r.key ≠ k := fun r member =>
      other r (List.mem_append_left _ member)
    have others : ∀ r ∈ defsOf code, r.key ≠ k := fun r member =>
      other r (List.mem_append_right _ member)
    exact (ih others (env.effect x m)).trans (env.registers_effect first m)

end Environment

/-! ### Expressions -/

namespace Select

def Selection.table (s : Selection) : List Temp :=
  (List.range s.temps).map Temp.numbered

theorem Selection.length_table (s : Selection) : s.table.length = s.temps := by
  simp [table]

theorem Selection.mem_table {s : Selection} {n : Nat} (small : n < s.temps) :
    .numbered n ∈ s.table :=
  List.mem_map_of_mem (List.mem_range.mpr small)

theorem Selection.table_getElem? {s : Selection} {i : Nat} {r : Temp}
    (found : s.table[i]? = some r) : r = .numbered i := by
  simp only [table, List.getElem?_map, Option.map_eq_some_iff] at found
  obtain ⟨n, found, rfl⟩ := found
  obtain ⟨_, rfl⟩ := List.getElem?_eq_some_iff.mp found
  rw [List.getElem_range]

theorem Selection.table_extended {s t : Selection} (more : s.temps ≤ t.temps) :
    s.table <+: t.table := by
  obtain ⟨k, total⟩ := Nat.le.dest more
  rw [table, table, ← total, List.range_add, List.map_append]
  exact List.prefix_append _ _

section Expressions

variable {addressing : Bool} {x : Node} {s t : Selection} {v : Option Value}

theorem stacked_of_ok (done : value addressing x s = .ok (v, t)) (room : s.top ≤ s.temps) :
    ∃ code, t.code.toList = s.code.toList ++ code ∧ Stacked s.top [] s t code [operand v] := by
  have done : lowered addressing true x s = .ok (v, t) := done
  obtain ⟨log, selects⟩ := selects_of_ok done
  exact ⟨_, selects.code, selects.stacked room⟩

theorem Stacked.defSet? {low : Nat} {known : List Temp} {code : List Instr} {xs : List Operand}
    (stacked : Stacked low known s t code xs) {z : Instr} (member : z ∈ code) :
    ∃ written, z.defSet? = some written ∧ ∀ n, written.contains n = true → low ≤ n := by
  have writes (r : Temp) (defined : r ∈ z.defs) : ∃ n, low ≤ n ∧ r = .numbered n :=
    stacked.grows.writes r (List.mem_flatMap.mpr ⟨z, member, defined⟩)
  obtain ⟨written, made, contains⟩ := ofList?_numbered z.defs fun r defined => by
    obtain ⟨n, _, same⟩ := writes r defined
    exact ⟨n, same⟩
  refine ⟨written, made, fun n held => ?_⟩
  obtain ⟨m, above, same⟩ := writes _ ((contains n).mp held)
  obtain rfl : n = m := congrArg Temp.key same
  exact above

/-- Registers below the stack are left alone. -/
theorem Stacked.registers {low : Nat} {known : List Temp} {code : List Instr} {xs : List Operand}
    (stacked : Stacked low known s t code xs) (env : Environment) (m : Machine) {k : Nat}
    (below : k < low) : (env.execute code m).registers k = m.registers k := by
  refine env.registers_execute (fun r defined => ?_) m
  obtain ⟨n, above, rfl⟩ := stacked.grows.writes r defined
  exact Nat.ne_of_gt (below.trans_le above)

/-- The code of an expression works on the registers from the top on, and leaves its value in
registers between the old top and the new one. Whatever is computed above these later on leaves
them as they are. -/
theorem value_stacked (room : s.top ≤ s.table.length)
    (done : value addressing x s = .ok (v, t)) :
    s.top ≤ t.top ∧ t.top ≤ t.table.length ∧
    s.table <+: t.table ∧ (∀ (i : Nat) (r : Temp), t.table[i]? = some r → r.id = i) ∧
    (∃ code, t.code.toList = s.code.toList ++ code ∧
      (∀ z ∈ code, ∃ written, z.defSet? = some written ∧
        ∀ n, written.contains n = true → s.top ≤ n) ∧
      ∀ env m, ∀ k < s.top, (Environment.execute env code m).registers k = m.registers k) ∧
    (∀ r ∈ (operand v).temps, r ∈ t.table ∧ s.top ≤ r.id ∧ r.id < t.top) ∧
    ∀ y u u' v' code, t.top ≤ u.top → u.top ≤ u.table.length →
      value addressing y u = .ok (v', u') → u'.code.toList = u.code.toList ++ code →
      ∀ env m, ∀ r ∈ (operand v).temps,
        (Environment.execute env code m).registers r.key = m.registers r.key := by
  rw [s.length_table] at room
  obtain ⟨code, added, stacked⟩ := stacked_of_ok done room
  have rests := stacked.rests (operand v) (by simp)
  refine ⟨stacked.rises, ?_, Selection.table_extended stacked.grows.more, ?_,
    ⟨code, added, fun z => stacked.defSet?, fun env m k => stacked.registers env m⟩, ?_, ?_⟩
  · rw [t.length_table]
    exact stacked.room
  · intro i r found
    rw [Selection.table_getElem? found]
    rfl
  · intro r mentioned
    obtain ⟨_, n, rfl, above, below⟩ := rests r mentioned
    exact ⟨Selection.mem_table (below.trans_le stacked.room), Int.ofNat_le.mpr above,
      Int.ofNat_lt.mpr below⟩
  · intro y u u' v' code' higher room' done' added' env m r mentioned
    obtain ⟨_, n, rfl, _, below⟩ := rests r mentioned
    rw [u.length_table] at room'
    obtain ⟨later, added, stacked'⟩ := stacked_of_ok done' room'
    obtain rfl : code' = later := List.append_cancel_left (added'.symm.trans added)
    exact stacked'.registers env m (below.trans_le higher)

end Expressions

/-- The place of an element. Its base is a place too, which goes to a register after the index. -/
def elementPlace : Node :=
  .binary .add (.addr (some ⟨.global 0, ascii "a"⟩))
    (.binary .mul (globalVar 1 "i") (.const 8))

theorem value_stacked_elementPlace : ∃ t,
    value true elementPlace { top := 2, temps := 3 } = .ok (some (.temp 3), t) ∧ t.top = 4 ∧
    (∀ r ∈ (operand (some (.temp 3))).temps, r ∈ t.table ∧ 2 ≤ r.id ∧ r.id < t.top) ∧
    ∀ env m, ∀ k < 2,
      (Environment.execute env t.code.toList m).registers k = m.registers k := by
  have done : value true elementPlace { top := 2, temps := 3 } =
      .ok (some (.temp 3), ⟨#[.move (register 2) (.cell 1 ⟨.global 1, ascii "i"⟩),
        .move (register 3) (.cell 0 ⟨.global 0, ascii "a"⟩),
        .lea (register 3) (.addr 2 none (register 3) (register 2) 8 0)], 4, 4, 3⟩) := by cbv
  obtain ⟨_, _, _, _, ⟨code, added, _, spared⟩, rests, _⟩ := value_stacked (by decide) done
  refine ⟨_, done, rfl, rests, ?_⟩
  rw [added]
  exact spared

/-! ### Functions -/

section Functions

variable {addressing : Bool} {body : List Node} {s t : Selection} {logs : List (List Emitted)}
  {options : Options} {f : Func} {r : Routine}

/-- The code of a function, statement by statement: the first statements alone have just the
first of it. -/
def Pieces (options : Options) (f : Func) (codes : List (List Instr)) : Prop :=
  codes.length = f.body.length ∧ ∀ i, ∃ r,
    generateFunc options { f with body := f.body.take i } = .ok r ∧
      r.lines.map Line.instr = (codes.take i).flatten

theorem stacked_statements {k : Nat} (done : statements addressing k body s = .ok ((), t)) :
    ∃ codes : List (List Instr), codes.length = body.length ∧ (∀ code ∈ codes, Fed [] code) ∧
      Grows 0 s.temps t.temps codes.flatten ∧
      ∀ i, ∃ u, statements addressing k (body.take i) s = .ok ((), u) ∧
        u.code.toList = s.code.toList ++ (codes.take i).flatten := by
  induction body generalizing k s with
  | nil =>
    cases done
    exact ⟨[], rfl, by simp, grows_nil 0 _, fun i => ⟨t, by simp [statements]; rfl, by simp⟩⟩
  | cons x body ih =>
    obtain ⟨_, _, released, done⟩ := gen_bind_ok done
    cases released
    obtain ⟨v, middle, doneFirst, done⟩ := gen_bind_ok done
    change within (.statement k) (node addressing false x) (s.free 0) = .ok (v, middle) at doneFirst
    have first : lowered addressing false x (s.free 0) = .ok (v, middle) := within_ok doneFirst
    obtain ⟨log, selects⟩ := selects_of_ok first
    have stacked := selects.stacked (Nat.zero_le _)
    obtain ⟨codes, length, fed, grows, cut⟩ := ih done
    refine ⟨log.map Emitted.instr :: codes, by simp [length], ?_, stacked.grows.append grows, ?_⟩
    · exact List.forall_mem_cons.mpr ⟨stacked.fed, fed⟩
    · intro i
      cases i with
      | zero => exact ⟨s, rfl, by simp⟩
      | succ i =>
        obtain ⟨u, doneOthers, added⟩ := cut i
        refine ⟨u, ?_, ?_⟩
        · rw [List.take_succ_cons, statements, gen_bind_of_ok (a := ()) (t := s.free 0) rfl,
            gen_bind_of_ok doneFirst]
          exact doneOthers
        · rw [added, selects.code, List.take_succ_cons, List.flatten_cons, List.append_assoc]
          rfl

theorem generateFunc_called (called : (options.inline && f.inlined) = false)
    (done : statements options.addressing 0 f.body {} = .ok ((), s)) :
    generateFunc options f = .ok (routine f s) := by
  simp [generateFunc, called, done, bind, Except.bind, pure, Except.pure]

/-- Each statement reads what it has written itself, and the registers are those in the code. -/
theorem pieces_of_ok (generated : generateFunc options f = .ok r) :
    ∃ codes, Pieces options f codes ∧ r.lines.map Line.instr = codes.flatten ∧
      (∀ code ∈ codes, Fed [] code) ∧ Grows 0 0 r.temps.length codes.flatten := by
  rcases generateFunc_cases generated with ⟨expanded, rfl⟩ | ⟨called, s, done, rfl⟩
  · refine ⟨List.replicate f.body.length [], ⟨List.length_replicate, fun i => ?_⟩, ?_, ?_, ?_⟩
    · refine ⟨{ routine f {} with inlined := true }, if_pos expanded, ?_⟩
      rw [List.take_replicate, List.flatten_replicate_nil]
      rfl
    · rw [List.flatten_replicate_nil]
      rfl
    · intro code member
      rw [List.eq_of_mem_replicate member]
      trivial
    · rw [List.flatten_replicate_nil]
      exact grows_nil 0 0
  · obtain ⟨codes, length, fed, grows, cut⟩ := stacked_statements done
    refine ⟨codes, ⟨length, fun i => ?_⟩, ?_, fed, ?_⟩
    · obtain ⟨u, done', added⟩ := cut i
      exact ⟨_, generateFunc_called called done', (routine_lines _ u).trans added⟩
    · obtain ⟨u, done', added⟩ := cut f.body.length
      rw [List.take_length, done] at done'
      cases done'
      rw [← length, List.take_length] at added
      exact (routine_lines f s).trans added
    · simpa [routine] using grows

/-- No statement reads a register that it has not written before. There are as many registers as
the greatest number in the code demands. -/
theorem generateFunc_fed (generated : generateFunc options f = .ok r) :
    ∃ codes, Pieces options f codes ∧ r.lines.map Line.instr = codes.flatten ∧
    (∀ code ∈ codes, ∀ (i : Nat) (x : Instr), code[i]? = some x →
      ∃ used, x.useSet? = some used ∧ ∀ n, used.contains n = true →
        ∃ j < i, ∃ y written, code[j]? = some y ∧ y.defSet? = some written ∧
          written.contains n = true) ∧
    ((r.temps.length = 0 ∧ ∀ line ∈ r.lines, line.instr.temps = []) ∨
      ∃ line ∈ r.lines, ∃ u ∈ line.instr.temps, r.temps.length = u.id + 1 ∧
        ∀ other ∈ r.lines, ∀ u' ∈ other.instr.temps, u'.id ≤ u.id) := by
  obtain ⟨codes, pieces, lines, fed, grows⟩ := pieces_of_ok generated
  have inside (line : Line) (member : line ∈ r.lines) (u : Temp)
      (mentioned : u ∈ line.instr.temps) : ∃ n < r.temps.length, u = .numbered n := by
    refine grows.inside u (List.mem_flatMap.mpr ⟨line.instr, ?_, mentioned⟩)
    rw [← lines]
    exact List.mem_map_of_mem member
  refine ⟨codes, pieces, lines, fun code member i x there => ?_, ?_⟩
  · refine (fed code member).useSet? (fun u mentioned => ?_) there
    obtain ⟨y, inCode, mentioned⟩ := List.mem_flatMap.mp mentioned
    obtain ⟨n, _, same⟩ := grows.inside u
      (List.mem_flatMap.mpr ⟨y, List.mem_flatten_of_mem member inCode, mentioned⟩)
    exact ⟨n, same⟩
  · rcases grows.reached with none | ⟨u, mentioned, last, some⟩
    · refine .inl ⟨none, fun line member => ?_⟩
      refine List.eq_nil_iff_forall_not_mem.mpr fun u mentioned => ?_
      obtain ⟨n, small, _⟩ := inside line member u mentioned
      omega
    · obtain ⟨x, inCode, mentioned⟩ := List.mem_flatMap.mp mentioned
      rw [← lines] at inCode
      obtain ⟨line, member, rfl⟩ := List.mem_map.mp inCode
      have id : u.id = (r.temps.length - 1 : Nat) := by rw [last]; rfl
      refine .inr ⟨line, member, u, mentioned, by omega, fun other member' u' mentioned' => ?_⟩
      obtain ⟨n, small, rfl⟩ := inside other member' u' mentioned'
      change (n : Int) ≤ _
      omega

end Functions

def recycling : Func :=
  { name := ascii "f"
    body := [.assign (globalVar 0 "x") (.binary .mul (globalVar 0 "x") (.mem elementPlace)),
      .ret (globalCall 2 "g" [globalVar 0 "x", .binary .sub (.const 1) (globalVar 1 "i")])] }

theorem generateFunc_fed_recycling : ∃ r codes, generateFunc {} recycling = .ok r ∧
    r.temps.length = 3 ∧ Pieces {} recycling codes ∧ codes.length = 2 ∧
    ∀ code ∈ codes, ∀ (i : Nat) (x : Instr), code[i]? = some x →
      ∃ used, x.useSet? = some used ∧ ∀ n, used.contains n = true →
        ∃ j < i, ∃ y written, code[j]? = some y ∧ y.defSet? = some written ∧
          written.contains n = true := by
  have count : (generateFunc {} recycling).toOption.map (·.temps.length) = some 3 := by cbv
  obtain ⟨r, generated⟩ := exists_ok (x := generateFunc {} recycling) (by cbv)
  obtain ⟨codes, pieces, _, fed, _⟩ := generateFunc_fed generated
  rw [generated] at count
  exact ⟨r, codes, generated, Option.some.inj count, pieces, pieces.1, fed⟩

end Select

end Codegen
