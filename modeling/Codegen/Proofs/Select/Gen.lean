import Codegen.Select.Func
import Mathlib

/-! What a selection that succeeds consists of. -/
namespace Codegen.Select

variable {α β : Type} {s t : Selection}

theorem gen_bind_ok {x : Gen α} {f : α → Gen β} {b : β} (done : (x >>= f) s = .ok (b, t)) :
    ∃ a middle, x s = .ok (a, middle) ∧ f a middle = .ok (b, t) := by
  change (x s >>= fun (a, middle) => f a middle) = .ok (b, t) at done
  cases first : x s with
  | error e => simp [first, bind, Except.bind] at done
  | ok result => exact ⟨result.1, result.2, rfl, by simpa [first, bind, Except.bind] using done⟩

theorem gen_bind_of_ok {x : Gen α} {next : α → Gen β} {a : α} (done : x s = .ok (a, t)) :
    (x >>= next) s = next a t := by
  change (x s >>= fun result => next result.1 result.2) = _
  rw [done]
  rfl

theorem gen_map_ok {x : Gen α} {f : α → β} {b : β} (done : (f <$> x) s = .ok (b, t)) :
    ∃ a, x s = .ok (a, t) ∧ b = f a := by
  change (x s >>= fun (a, last) => .ok (f a, last)) = .ok (b, t) at done
  cases first : x s with
  | error e => simp [first, bind, Except.bind] at done
  | ok result =>
    simp only [first, bind, Except.bind, Except.ok.injEq, Prod.mk.injEq] at done
    exact ⟨result.1, by rw [← done.2], done.1.symm⟩

theorem within_ok {place : Inside} {part : Gen α} {a : α}
    (done : within place part s = .ok (a, t)) : part s = .ok (a, t) := by
  unfold within at done
  cases inner : part s with
  | error e => simp [inner, Except.mapError] at done
  | ok result => simpa [inner, Except.mapError] using done

theorem exists_ok {ε α : Type} {x : Except ε α} (succeeds : x.toOption.isSome = true) :
    ∃ a, x = .ok a := by
  cases x with
  | error e => contradiction
  | ok a => exact ⟨a, rfl⟩

/-- A routine that is generated is that of the statements of its function, or empty. -/
theorem generateFunc_ok {options : Options} {f : Func} {r : Routine}
    (generated : generateFunc options f = .ok r) :
    (options.inline = true ∧ f.inlined = true ∧ r = { routine f {} with inlined := true }) ∨
      ∃ s, statements options.addressing 0 f.body {} = .ok ((), s) ∧ r = routine f s := by
  unfold generateFunc at generated
  split at generated
  next expanded =>
    cases generated
    simp only [Bool.and_eq_true] at expanded
    exact .inl ⟨expanded.1, expanded.2, rfl⟩
  next =>
    cases done : statements options.addressing 0 f.body {} with
    | error e => simp [done, bind, Except.bind] at generated
    | ok result =>
      simp only [done, bind, Except.bind, pure, Except.pure, Except.ok.injEq] at generated
      exact .inr ⟨result.2, rfl, generated.symm⟩

/-- The code of a routine that is generated is all its instructions in order. -/
theorem generateFunc_code {options : Options} {f : Func} {r : Routine}
    (generated : generateFunc options f = .ok r) : r.code = List.range r.entries.size := by
  rcases generateFunc_ok generated with ⟨_, _, rfl⟩ | ⟨s, _, rfl⟩ <;> simp [routine]

theorem generateFunc_endLabel {options : Options} {f : Func} {r : Routine}
    (generated : generateFunc options f = .ok r) : r.endLabel = f.name ++ ascii "_end" := by
  rcases generateFunc_ok generated with ⟨_, _, rfl⟩ | ⟨s, _, rfl⟩ <;> rfl

end Codegen.Select
