import Codegen.Routine
import Mathlib

/-! Renaming is substitution. Two renamings of one register after the other are one renaming of
what either covers, in the instruction itself and in all that shares addresses with it. -/
namespace Codegen

namespace Temp

@[simp] theorem replace_replace (old new t : Temp) :
    replace old new (replace old new t) = replace old new t := by
  by_cases same : t = old
  · simp [replace, same]
  · simp [replace, same]

end Temp

namespace Operand

/-- The addresses in an operand, each before those inside it. -/
def addresses : Operand → List Operand
  | addr object symbol base index scale offset =>
    addr object symbol base index scale offset :: (base.addresses ++ index.addresses)
  | _ => []

def isTemp : Operand → Bool
  | temp _ => true
  | _ => false

def object? : Operand → Option Nat
  | addr object _ _ _ _ _ => some object
  | _ => none

variable (f : Temp → Temp) (os : List Nat) (x : Operand)

theorem mapTemps_mapTemps (g : Temp → Temp) :
    (x.mapTemps f).mapTemps g = x.mapTemps fun t => g (f t) := by
  induction x with
  | absent | imm value | temp t => rfl
  | addr object symbol base index scale offset inBase inIndex => simp [mapTemps, inBase, inIndex]

@[simp] theorem temps_mapTemps : (x.mapTemps f).temps = x.temps.map f := by
  induction x with
  | absent | imm value | temp t => rfl
  | addr object symbol base index scale offset inBase inIndex =>
    simp [mapTemps, temps, inBase, inIndex]

@[simp] theorem objects_mapTemps : (x.mapTemps f).objects = x.objects := by
  induction x with
  | absent | imm value | temp t => rfl
  | addr object symbol base index scale offset inBase inIndex =>
    simp [mapTemps, objects, inBase, inIndex]

@[simp] theorem addresses_mapTemps : (x.mapTemps f).addresses = x.addresses.map (mapTemps f) := by
  induction x with
  | absent | imm value | temp t => rfl
  | addr object symbol base index scale offset inBase inIndex =>
    simp [mapTemps, addresses, inBase, inIndex]

theorem mapShared_nil : mapShared [] f = id := by
  funext x
  induction x with
  | absent | imm value | temp t => rfl
  | addr object symbol base index scale offset inBase inIndex => simp [mapShared, inBase, inIndex]

/-- An address that is not among the objects, with all that is inside it, stays as it is. -/
theorem mapShared_of_apart {os : List Nat} {x : Operand} (apart : ∀ o ∈ x.objects, o ∉ os) :
    mapShared os f x = x := by
  induction x with
  | absent | imm value | temp t => rfl
  | addr object symbol base index scale offset inBase inIndex =>
    have outside : object ∉ os := apart object (by simp [objects])
    simp only [mapShared, if_neg outside]
    rw [inBase fun o inside => apart o (by simp [objects, inside]),
      inIndex fun o inside => apart o (by simp [objects, inside])]

theorem mapShared_mapShared {f : Temp → Temp} (idempotent : ∀ t, f (f t) = f t) :
    mapShared os f (mapShared os f x) = mapShared os f x := by
  induction x with
  | absent | imm value | temp t => rfl
  | addr object symbol base index scale offset inBase inIndex =>
    by_cases shared : object ∈ os
    · simp [mapShared, shared, mapTemps_mapTemps, idempotent]
    · simp [mapShared, shared, inBase, inIndex]

@[simp] theorem object?_mapShared : (mapShared os f x).object? = x.object? := by
  cases x with
  | absent | imm value | temp t => rfl
  | addr object symbol base index scale offset =>
    by_cases shared : object ∈ os <;> simp [mapShared, shared, object?]

theorem mapShared_of_mem {os : List Nat} {x : Operand} {o : Nat} (isObject : x.object? = some o)
    (shared : o ∈ os) : mapShared os f x = x.mapTemps f := by
  cases x with
  | absent | imm value | temp t => contradiction
  | addr object symbol base index scale offset =>
    cases isObject
    simp [mapShared, shared, mapTemps]

theorem objects_eq : x.objects = x.addresses.filterMap object? := by
  induction x with
  | absent | imm value | temp t => rfl
  | addr object symbol base index scale offset inBase inIndex =>
    simp [objects, addresses, object?, inBase, inIndex]

theorem object_of_mem_addresses {x a : Operand} (inside : a ∈ x.addresses) :
    ∃ o ∈ x.objects, a.object? = some o := by
  rw [objects_eq]
  have isAddress : ∃ o, a.object? = some o := by
    induction x with
    | absent | imm value | temp t => contradiction
    | addr object symbol base index scale offset inBase inIndex =>
      rcases List.mem_cons.mp inside with rfl | inside
      · exact ⟨object, rfl⟩
      · exact (List.mem_append.mp inside).elim inBase inIndex
  obtain ⟨o, isObject⟩ := isAddress
  exact ⟨o, List.mem_filterMap.mpr ⟨a, inside, isObject⟩, isObject⟩

theorem objects_subset {x a : Operand} (inside : a ∈ x.addresses) : a.objects ⊆ x.objects := by
  induction x with
  | absent | imm value | temp t => contradiction
  | addr object symbol base index scale offset inBase inIndex =>
    rcases List.mem_cons.mp inside with rfl | inside
    · exact List.Subset.refl _
    · refine List.Subset.trans ?_ (List.subset_cons_self object _)
      rcases List.mem_append.mp inside with inside | inside
      · exact List.Subset.trans (inBase inside) (List.subset_append_left _ _)
      · exact List.Subset.trans (inIndex inside) (List.subset_append_right _ _)

/-- Where nothing inside a shared address is left out, every address is changed in one way. -/
theorem addresses_mapShared {os : List Nat} {x : Operand}
    (closed : ∀ a ∈ x.addresses, ∀ o ∈ os, a.object? = some o → a.objects ⊆ os) :
    (mapShared os f x).addresses = x.addresses.map (mapShared os f) := by
  induction x with
  | absent | imm value | temp t => rfl
  | addr object symbol base index scale offset inBase inIndex =>
    have below {y : Operand} (part : y.addresses ⊆ base.addresses ++ index.addresses) :
        ∀ a ∈ y.addresses, ∀ o ∈ os, a.object? = some o → a.objects ⊆ os :=
      fun a inside => closed a (List.mem_cons_of_mem _ (part inside))
    by_cases shared : object ∈ os
    · have all : ∀ a ∈ base.addresses ++ index.addresses, a.mapTemps f = mapShared os f a := by
        intro a inside
        have whole := closed _ (List.mem_cons_self ..) object shared rfl
        obtain ⟨o, within, isObject⟩ : ∃ o ∈ base.objects ++ index.objects, a.object? = some o := by
          rcases List.mem_append.mp inside with inside | inside
          · obtain ⟨o, within, isObject⟩ := object_of_mem_addresses inside
            exact ⟨o, List.mem_append_left _ within, isObject⟩
          · obtain ⟨o, within, isObject⟩ := object_of_mem_addresses inside
            exact ⟨o, List.mem_append_right _ within, isObject⟩
        exact (mapShared_of_mem f isObject (whole (List.mem_cons_of_mem _ within))).symm
      simp only [mapShared, if_pos shared, addresses, addresses_mapTemps, List.map_cons,
        ← List.map_append, List.map_congr_left all]
    · simp only [mapShared, if_neg shared, addresses, List.map_cons, List.map_append,
        inBase (below (List.subset_append_left _ _)),
        inIndex (below (List.subset_append_right _ _))]

end Operand

/-- What two renamings of one register cover. -/
def Coverage.join : Coverage → Coverage → Coverage
  | .uses, .uses => .uses
  | .defs, .defs => .defs
  | _, _ => .all

namespace Instr

variable (x : Instr) (old new : Temp)

def mapTemps (f : Temp → Temp) (x : Instr) : Instr :=
  x.mapOperands fun _ => Operand.mapTemps f

section Operands

variable (f g : Access → Operand → Operand)

@[simp] theorem operands_mapOperands :
    (x.mapOperands f).operands = x.operands.map fun slot => (slot.1, f slot.1 slot.2) := by
  cases x <;> simp [mapOperands, operands]

theorem mapOperands_mapOperands :
    (x.mapOperands f).mapOperands g = x.mapOperands fun access y => g access (f access y) := by
  cases x <;> simp [mapOperands]

theorem mapOperands_eq_self {f : Access → Operand → Operand} {x : Instr}
    (same : ∀ slot ∈ x.operands, f slot.1 slot.2 = slot.2) : x.mapOperands f = x := by
  cases x with
  | call callee args result =>
    have args_eq : args.map (f .read) = args :=
      (List.map_congr_left fun y inside => same (.read, y) (by simp [operands, inside])).trans
        (List.map_id' args)
    rw [mapOperands, args_eq, same (.write, result) (by simp [operands])]
  | _ => simp_all [mapOperands, operands]

theorem mapOperands_id : x.mapOperands (fun _ => id) = x :=
  mapOperands_eq_self fun _ _ => rfl

end Operands

@[simp] theorem temps_mapTemps (f : Temp → Temp) : (x.mapTemps f).temps = x.temps.map f := by
  simp [temps, mapTemps, List.flatMap_map, List.map_flatMap]

theorem rename_all : x.rename .all old new = x.mapTemps (Temp.replace old new) :=
  rfl

theorem renameSlot_renameSlot (first second : Coverage) (access : Access) (y : Operand) :
    renameSlot second old new access (renameSlot first old new access y) =
      renameSlot (first.join second) old new access y := by
  cases first <;> cases second <;> cases access <;> cases y <;>
    simp [renameSlot, Coverage.join, Operand.mapTemps, Operand.mapTemps_mapTemps]

theorem rename_rename (first second : Coverage) :
    (x.rename first old new).rename second old new = x.rename (first.join second) old new := by
  simp only [rename, mapOperands_mapOperands, renameSlot_renameSlot]

theorem renameSlot_cases (which : Coverage) (access : Access) (y : Operand) :
    renameSlot which old new access y = y ∨
      renameSlot which old new access y = y.mapTemps (Temp.replace old new) := by
  cases which <;> cases access <;> cases y <;> simp [renameSlot, Operand.mapTemps]

/-- A renaming changes nothing but registers. -/
theorem mapTemps_rename (which : Coverage) (t : Temp) :
    (x.rename which old new).mapTemps (fun _ => t) = x.mapTemps fun _ => t := by
  rw [rename, mapTemps, mapTemps, mapOperands_mapOperands]
  congr 1
  funext access y
  rcases renameSlot_cases old new which access y with same | same
  · rw [same]
  · rw [same, Operand.mapTemps_mapTemps]

/-- Two instructions with the same slots. Where `spared` holds of a slot of the first, its operand
is the same too. -/
def Spares (spared : Access → Operand → Prop) (x y : Instr) : Prop :=
  List.Forall₂ (fun slot slot' => slot'.1 = slot.1 ∧ (spared slot.1 slot.2 → slot'.2 = slot.2))
    x.operands y.operands

theorem spares_rename {which : Coverage} {spared : Access → Operand → Prop}
    (kept : ∀ access y, spared access y → renameSlot which old new access y = y) :
    x.Spares spared (x.rename which old new) := by
  rw [Spares, rename, operands_mapOperands, List.forall₂_map_right_iff, List.forall₂_same]
  exact fun slot _ => ⟨rfl, kept slot.1 slot.2⟩

def objects : List Nat :=
  x.operands.flatMap fun slot => slot.2.objects

theorem objects_rename (which : Coverage) : (x.rename which old new).objects = x.objects := by
  rw [objects, objects, rename, operands_mapOperands, List.flatMap_map]
  refine List.flatMap_congr fun slot _ => ?_
  rcases renameSlot_cases old new which slot.1 slot.2 with same | same
  · rw [same]
  · rw [same, Operand.objects_mapTemps]

theorem renamedObjects_rename (first second : Coverage) :
    (x.rename first old new).renamedObjects second = x.renamedObjects second := by
  cases second with
  | defs => rfl
  | uses | all => exact objects_rename x old new first

/-- Shared addresses are renamed twice like once. -/
theorem mapShared_renamedObjects (first second : Coverage) (y : Operand) :
    (y.mapShared (x.renamedObjects first) (Temp.replace old new)).mapShared
        (x.renamedObjects second) (Temp.replace old new) =
      y.mapShared (x.renamedObjects (first.join second)) (Temp.replace old new) := by
  have twice := y.mapShared_mapShared x.objects (Temp.replace_replace old new)
  cases first <;> cases second <;>
    simp only [renamedObjects, Coverage.join, Operand.mapShared_nil, id] <;> exact twice

theorem renameShared_renameShared (first second : Coverage) (y : Instr) :
    (y.renameShared (x.renamedObjects first) old new).renameShared
        (x.renamedObjects second) old new =
      y.renameShared (x.renamedObjects (first.join second)) old new := by
  simp only [renameShared, mapOperands_mapOperands, mapShared_renamedObjects]

def addresses : List Operand :=
  x.operands.flatMap fun slot => slot.2.addresses

/-- In the instruction itself an address is renamed like a shared one. -/
theorem addresses_rename (which : Coverage) : (x.rename which old new).addresses =
    x.addresses.map (Operand.mapShared (x.renamedObjects which) (Temp.replace old new)) := by
  rw [addresses, addresses, rename, operands_mapOperands, List.flatMap_map, List.map_flatMap]
  refine List.flatMap_congr fun slot inside => ?_
  obtain ⟨access, y⟩ := slot
  cases which with
  | defs =>
    have kept : (renameSlot .defs old new access y).addresses = y.addresses := by
      cases access <;> cases y <;> rfl
    rw [kept, renamedObjects, Operand.mapShared_nil, List.map_id]
  | uses | all =>
    have changed (which : Coverage) (covers : which ≠ .defs) :
        (renameSlot which old new access y).addresses =
          y.addresses.map (Operand.mapTemps (Temp.replace old new)) := by
      cases which <;> cases access <;> cases y <;>
        first | contradiction | rfl | exact Operand.addresses_mapTemps _ _
    rw [changed _ (by simp)]
    refine List.map_congr_left fun a within => ?_
    obtain ⟨o, isInside, isObject⟩ := Operand.object_of_mem_addresses within
    exact (Operand.mapShared_of_mem _ isObject
      (List.mem_flatMap.mpr ⟨_, inside, isInside⟩)).symm

end Instr

namespace Pool

variable {pool : Pool} {i : Nat} {x : Instr}

def addresses (pool : Pool) : List Operand :=
  pool.operands.flatMap Operand.addresses ++ pool.instrs.flatMap Instr.addresses

/-- One object is one address, wherever it stands. -/
def Coherent (pool : Pool) : Prop :=
  ∀ a ∈ pool.addresses, ∀ b ∈ pool.addresses, a.object? = b.object? → a = b

theorem rename_eq (found : pool.instrs[i]? = some x) (which : Coverage) (old new : Temp) :
    pool.rename which i old new =
      { operands := pool.operands.map
          (Operand.mapShared (x.renamedObjects which) (Temp.replace old new))
        instrs := (pool.instrs.map (Instr.renameShared (x.renamedObjects which) old new)).set i
          (x.rename which old new) } := by
  simp only [rename, found]

theorem instrs_rename (found : pool.instrs[i]? = some x) (which : Coverage) (old new : Temp) :
    (pool.rename which i old new).instrs[i]? = some (x.rename which old new) := by
  have small := (List.getElem?_eq_some_iff.mp found).1
  rw [rename_eq found]
  exact List.getElem?_set_self (by simpa using small)

theorem rename_rename (pool : Pool) (first second : Coverage) (i : Nat) (old new : Temp) :
    (pool.rename first i old new).rename second i old new =
      pool.rename (first.join second) i old new := by
  cases found : pool.instrs[i]? with
  | none => simp only [rename, found]
  | some x =>
    rw [rename_eq (instrs_rename found first old new), rename_eq found, rename_eq found,
      Instr.renamedObjects_rename, Instr.rename_rename]
    simp only [List.map_set, List.set_set, List.map_map, Function.comp_def,
      Instr.mapShared_renamedObjects, Instr.renameShared_renameShared]

theorem mem_addresses {y : Instr} {a : Operand} (member : y ∈ pool.instrs)
    (inside : a ∈ y.addresses) : a ∈ pool.addresses :=
  List.mem_append_right _ (List.mem_flatMap.mpr ⟨y, member, inside⟩)

/-- Whatever is inside a renamed address is renamed too. -/
theorem closed_of_coherent (coherent : pool.Coherent) (member : x ∈ pool.instrs)
    (which : Coverage) : ∀ a ∈ pool.addresses, ∀ o ∈ x.renamedObjects which,
      a.object? = some o → a.objects ⊆ x.renamedObjects which := by
  have whole : ∀ a ∈ pool.addresses, ∀ o ∈ x.objects, a.object? = some o →
      a.objects ⊆ x.objects := by
    intro a inPool o inside isObject
    obtain ⟨slot, isSlot, inside⟩ := List.mem_flatMap.mp inside
    rw [Operand.objects_eq] at inside
    obtain ⟨b, inside, isObject'⟩ := List.mem_filterMap.mp inside
    have inInstr : b ∈ x.addresses := List.mem_flatMap.mpr ⟨slot, isSlot, inside⟩
    obtain rfl := coherent a inPool b (mem_addresses member inInstr)
      (isObject.trans isObject'.symm)
    exact fun o' within => List.mem_flatMap.mpr ⟨slot, isSlot, Operand.objects_subset inside within⟩
  cases which with
  | defs => exact fun a _ o nothing => absurd nothing List.not_mem_nil
  | uses | all => exact whole

/-- Every address after a renaming is one from before, renamed like all others of its object. -/
theorem addresses_rename (coherent : pool.Coherent) (found : pool.instrs[i]? = some x)
    (which : Coverage) (old new : Temp) : ∀ a ∈ (pool.rename which i old new).addresses,
      ∃ b ∈ pool.addresses, a = b.mapShared (x.renamedObjects which) (Temp.replace old new) := by
  have member := List.mem_of_getElem? found
  have closed := closed_of_coherent coherent member which
  have shared (y : Operand) (within : y.addresses ⊆ pool.addresses) :
      ∀ a ∈ (y.mapShared (x.renamedObjects which) (Temp.replace old new)).addresses,
        ∃ b ∈ pool.addresses,
          a = b.mapShared (x.renamedObjects which) (Temp.replace old new) := by
    intro a renamed
    rw [Operand.addresses_mapShared _ fun b inside => closed b (within inside)] at renamed
    obtain ⟨b, inside, same⟩ := List.mem_map.mp renamed
    exact ⟨b, within inside, same.symm⟩
  intro a renamed
  rw [rename_eq found] at renamed
  rcases List.mem_append.mp renamed with renamed | renamed
  · obtain ⟨z, mapped, renamed⟩ := List.mem_flatMap.mp renamed
    obtain ⟨y, isOperand, rfl⟩ := List.mem_map.mp mapped
    refine shared y (fun b inside => ?_) a renamed
    exact List.mem_append_left _ (List.mem_flatMap.mpr ⟨y, isOperand, inside⟩)
  · obtain ⟨z, mapped, renamed⟩ := List.mem_flatMap.mp renamed
    rcases List.mem_or_eq_of_mem_set mapped with mapped | rfl
    · obtain ⟨y, isInstr, rfl⟩ := List.mem_map.mp mapped
      obtain ⟨slot', mapped, renamed⟩ := List.mem_flatMap.mp renamed
      rw [Instr.renameShared, Instr.operands_mapOperands] at mapped
      obtain ⟨slot, isSlot, rfl⟩ := List.mem_map.mp mapped
      refine shared slot.2 (fun b inside => ?_) a renamed
      exact mem_addresses isInstr (List.mem_flatMap.mpr ⟨slot, isSlot, inside⟩)
    · rw [Instr.addresses_rename] at renamed
      obtain ⟨b, inside, same⟩ := List.mem_map.mp renamed
      exact ⟨b, mem_addresses member inside, same.symm⟩

/-- What was one address still is one. -/
theorem coherent_rename (coherent : pool.Coherent) (which : Coverage) (i : Nat) (old new : Temp) :
    (pool.rename which i old new).Coherent := by
  cases found : pool.instrs[i]? with
  | none => simpa only [rename, found] using coherent
  | some x =>
    intro a inside b inside' same
    obtain ⟨a, inPool, rfl⟩ := addresses_rename coherent found which old new a inside
    obtain ⟨b, inPool', rfl⟩ := addresses_rename coherent found which old new b inside'
    rw [Operand.object?_mapShared, Operand.object?_mapShared] at same
    rw [coherent a inPool b inPool' same]

/-- What is written is renamed in the instruction alone. -/
theorem rename_defs (found : pool.instrs[i]? = some x) (old new : Temp) :
    pool.rename .defs i old new =
      { pool with instrs := pool.instrs.set i (x.rename .defs old new) } := by
  have kept : Instr.renameShared [] old new = id := by
    funext y
    rw [Instr.renameShared, Operand.mapShared_nil, Instr.mapOperands_id, id]
  rw [rename_eq found, Instr.renamedObjects, Operand.mapShared_nil, kept, List.map_id, List.map_id]

/-- Renaming everywhere substitutes one register for another and changes nothing else. What is
read and what is written can be renamed one after the other, in any order, and a second time
without effect, also in the instructions and operands that share an address. Renaming what is
written leaves all addresses and what is only read alone, and renaming what is read leaves a
register alone that is only written. -/
theorem rename_substitution (found : pool.instrs[i]? = some x) (old new : Temp) :
    (∀ which, (pool.rename which i old new).instrs[i]? = some (x.rename which old new) ∧
      ∀ t, (x.rename which old new).mapTemps (fun _ => t) = x.mapTemps fun _ => t) ∧
    (x.rename .all old new).temps = x.temps.map (Temp.replace old new) ∧
    (pool.rename .uses i old new).rename .defs i old new = pool.rename .all i old new ∧
    (pool.rename .defs i old new).rename .uses i old new = pool.rename .all i old new ∧
    (∀ which, (pool.rename which i old new).rename which i old new =
      pool.rename which i old new) ∧
    pool.rename .defs i old new =
      { pool with instrs := pool.instrs.set i (x.rename .defs old new) } ∧
    x.Spares (fun access y => access = .read ∨ y.isTemp = false) (x.rename .defs old new) ∧
    x.Spares (fun access y => access = .write ∧ y.isTemp = true) (x.rename .uses old new) ∧
    (pool.Coherent → ∀ which, (pool.rename which i old new).Coherent) := by
  refine ⟨fun which => ⟨instrs_rename found which old new, x.mapTemps_rename old new which⟩, ?_,
    pool.rename_rename .uses .defs i old new, pool.rename_rename .defs .uses i old new, ?_,
    rename_defs found old new, ?_, ?_, ?_⟩
  · rw [Instr.rename_all, Instr.temps_mapTemps]
  · intro which
    rw [rename_rename]
    cases which <;> rfl
  · refine x.spares_rename old new fun access y spared => ?_
    cases access <;> cases y <;> simp_all [Instr.renameSlot, Operand.isTemp]
  · refine x.spares_rename old new fun access y spared => ?_
    cases access <;> cases y <;> simp_all [Instr.renameSlot, Operand.isTemp]
  · exact fun coherent which => coherent_rename coherent which i old new

instance (pool : Pool) : Decidable pool.Coherent :=
  inferInstanceAs (Decidable (∀ a ∈ pool.addresses, ∀ b ∈ pool.addresses, _ → _))

/-- An address with another one inside, which two instructions and an operand share. The register
with key 3 has the number of the one with key 0. -/
def sharing : Pool :=
  let inner : Operand := .addr 1 none (.temp ⟨0, 0, .unassigned⟩) .absent 1 8
  let outer : Operand := .addr 0 none (.temp ⟨1, 1, .unassigned⟩) inner 4 0
  { operands := [inner]
    instrs := [.move outer outer, .call none [outer, .temp ⟨3, 0, .unassigned⟩, inner]
      (.temp ⟨0, 0, .unassigned⟩)] }

theorem rename_substitution_sharing :
    sharing.Coherent ∧ (sharing.rename .all 1 (.numbered 0) (.numbered 2)).Coherent ∧
    (sharing.rename .all 1 (.numbered 0) (.numbered 2)).instrs.map Instr.temps =
      [[.numbered 1, .numbered 2, .numbered 1, .numbered 2],
        [.numbered 1, .numbered 2, ⟨3, 0, .unassigned⟩, .numbered 2, .numbered 2]] ∧
    (sharing.rename .uses 1 (.numbered 0) (.numbered 2)).rename .defs 1 (.numbered 0)
      (.numbered 2) = sharing.rename .all 1 (.numbered 0) (.numbered 2) := by
  have coherent : sharing.Coherent := by decide +kernel
  have found : ∃ x, sharing.instrs[1]? = some x := ⟨_, rfl⟩
  obtain ⟨x, found⟩ := found
  obtain ⟨_, _, composed, _, _, _, _, _, kept⟩ :=
    rename_substitution found (.numbered 0) (.numbered 2)
  exact ⟨coherent, kept coherent .all, by decide +kernel, composed⟩

end Pool

end Codegen
