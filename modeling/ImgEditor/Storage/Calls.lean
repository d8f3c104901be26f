import Mathlib.Logic.Basic

namespace Storage

/-! Calls of a callback for one item after the other, up to the first one behind which the caller stops. -/

section Calls

variable {α : Type} (goesOn : List α → Bool)

/-- The calls after these, and whether the caller came to the end of the items; `goesOn` looks at all calls so far. -/
def callAll : List α → List α → List α × Bool
  | calls, [] => (calls, true)
  | calls, call :: rest => if goesOn (calls ++ [call]) then callAll (calls ++ [call]) rest else (calls ++ [call], false)

variable {goesOn}

theorem callAll_append (calls first second : List α) : callAll goesOn calls (first ++ second) =
    if (callAll goesOn calls first).2 then callAll goesOn (callAll goesOn calls first).1 second
    else callAll goesOn calls first := by
  induction first generalizing calls with
  | nil => rfl
  | cons call rest ih =>
    rw [List.cons_append, callAll, callAll]
    split
    · exact ih (calls ++ [call])
    · rfl

theorem callAll_always (calls items : List α) : callAll (fun _ => true) calls items = (calls ++ items, true) := by
  induction items generalizing calls with
  | nil => rw [callAll, List.append_nil]
  | cons call rest ih => rw [callAll, if_pos rfl, ih, ← List.append_cons]

end Calls

end Storage
