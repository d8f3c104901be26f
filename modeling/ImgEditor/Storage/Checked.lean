import Mathlib.Logic.Basic
import Mathlib.Tactic.Basic

namespace Storage

/-! Computations that stop at the first failure. -/

variable {ε α β : Type}

def refuseIf (fail : ε) (c : Prop) [Decidable c] : Except ε Unit := if c then throw fail else return ()

theorem refuseIf_ok_iff {fail : ε} {c : Prop} [Decidable c] {u : Unit} : refuseIf fail c = .ok u ↔ ¬ c := by
  unfold refuseIf
  split
  · exact iff_of_false nofun (not_not.mpr ‹c›)
  · exact iff_of_true rfl ‹¬ c›

theorem refuseIf_error_iff {fail other : ε} {c : Prop} [Decidable c] : refuseIf fail c = .error other ↔ c ∧ fail = other := by
  unfold refuseIf
  split
  · exact ⟨fun same => ⟨‹c›, Except.error.inj same⟩, fun both => congrArg _ both.2⟩
  · exact iff_of_false nofun fun both => ‹¬ c› both.1

theorem bind_ok_iff {x : Except ε α} {next : α → Except ε β} {b : β} :
    (x >>= next) = .ok b ↔ ∃ a, x = .ok a ∧ next a = .ok b := by
  cases x <;> simp [bind, Except.bind]

theorem ok_bind {a : α} {next : α → Except ε β} : (Except.ok a >>= next) = next a := rfl

theorem bind_error_iff {x : Except ε α} {next : α → Except ε β} {fail : ε} :
    (x >>= next) = .error fail ↔ x = .error fail ∨ ∃ a, x = .ok a ∧ next a = .error fail := by
  cases x <;> simp [bind, Except.bind]

def found (fail : ε) : Option α → Except ε α
  | none => throw fail
  | some a => return a

theorem found_ok_iff {o : Option α} {fail : ε} {a : α} : found fail o = .ok a ↔ o = some a := by
  cases o with
  | none => exact iff_of_false nofun nofun
  | some b => exact ⟨fun same => congrArg some (Except.ok.inj same), fun same => congrArg Except.ok (Option.some.inj same)⟩

theorem found_error_iff {o : Option α} {fail other : ε} : found fail o = .error other ↔ o = none ∧ fail = other := by
  cases o with
  | none => exact ⟨fun same => ⟨rfl, Except.error.inj same⟩, fun both => congrArg Except.error both.2⟩
  | some b => exact iff_of_false nofun nofun

/-- What holds of the value of a computation, or of the failure it stops at. -/
def Outcome (good : α → Prop) (bad : ε → Prop) : Except ε α → Prop
  | .ok a => good a
  | .error fail => bad fail

theorem refuseIf_passed {fail : ε} {c : Prop} [Decidable c] (passed : ¬ c) : refuseIf fail c = .ok () :=
  refuseIf_ok_iff.mpr passed

namespace Outcome

variable {good good' : α → Prop} {bad bad' : ε → Prop}

@[simp] theorem pure_iff {a : α} : Outcome good bad (pure a) ↔ good a := Iff.rfl

@[simp] theorem throw_iff {fail : ε} : Outcome good bad (throw fail) ↔ bad fail := Iff.rfl

theorem mono {x : Except ε α} (known : Outcome good bad x) (better : ∀ a, good a → good' a) (worse : ∀ e, bad e → bad' e) :
    Outcome good' bad' x := by
  cases x with
  | ok a => exact better a known
  | error fail => exact worse fail known

theorem bind {x : Except ε α} {next : α → Except ε β} {result : β → Prop} (first : Outcome good bad x)
    (second : ∀ a, good a → Outcome result bad (next a)) : Outcome result bad (x >>= next) := by
  cases x with
  | ok a => exact second a first
  | error fail => exact first

theorem refuse {fail : ε} {c : Prop} [Decidable c] (stopped : c → bad fail) :
    Outcome (fun _ => ¬ c) bad (refuseIf fail c) := by
  unfold refuseIf
  split
  · exact stopped ‹c›
  · exact ‹¬ c›

theorem of_ok {x : Except ε α} {a : α} (known : Outcome good bad x) (done : x = .ok a) : good a := by
  rw [done] at known
  exact known

theorem of_error {x : Except ε α} {fail : ε} (known : Outcome good bad x) (failed : x = .error fail) : bad fail := by
  rw [failed] at known
  exact known

end Outcome

end Storage
