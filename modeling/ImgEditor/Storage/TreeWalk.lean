import ImgEditor.Storage.Acyclic

namespace Storage

/-! Recursive walks that go through the steps of a node in order and give up at the first failure. -/

inductive WalkStep (δ : Type) where
  | leaf (passes : Bool)
  | into (child : δ)
deriving DecidableEq

section TreeWalk

variable {δ : Type}

def runSteps (enter : δ → Option Bool) : List (WalkStep δ) → Option Bool
  | [] => some true
  | .leaf passes :: rest => if passes then runSteps enter rest else some false
  | .into child :: rest =>
    match enter child with
    | some true => runSteps enter rest
    | other => other

variable (steps : δ → List (WalkStep δ))

/-- Whether all steps pass; `none` when the recursion is deeper than the fuel. -/
def treeWalk : Nat → δ → Option Bool
  | 0, _ => none
  | fuel + 1, d => runSteps (treeWalk fuel) (steps d)

def WalkReturns (d : δ) : Prop := ∃ fuel, treeWalk steps fuel d ≠ none

def WalkPasses (d : δ) : Prop := ∃ fuel, treeWalk steps fuel d = some true

def StepPasses : WalkStep δ → Prop
  | .leaf passes => passes = true
  | .into child => WalkPasses steps child

/-- The walk of `d` comes to `child`: all steps in front of it pass. -/
def Leads (d child : δ) : Prop :=
  ∃ before after, steps d = before ++ .into child :: after ∧ ∀ s ∈ before, StepPasses steps s

variable {steps}

theorem runSteps_leaf (enter : δ → Option Bool) (passes : Bool) : runSteps enter [.leaf passes] = some passes := by
  cases passes with
  | true => rfl
  | false => rfl

theorem runSteps_into (enter : δ → Option Bool) (child : δ) : runSteps enter [.into child] = enter child := by
  rw [runSteps]
  cases enter child with
  | none => rfl
  | some passed =>
    cases passed with
    | true => rfl
    | false => rfl

theorem runSteps_cons (enter : δ → Option Bool) (step : WalkStep δ) (rest : List (WalkStep δ)) : runSteps enter (step :: rest) =
    (runSteps enter [step]).bind fun passed => if passed then runSteps enter rest else some false := by
  cases step with
  | leaf passes =>
    rw [runSteps_leaf]
    cases passes with
    | true => rfl
    | false => rfl
  | into child =>
    rw [runSteps_into, runSteps]
    cases enter child with
    | none => rfl
    | some passed =>
      cases passed with
      | true => rfl
      | false => rfl

theorem runSteps_mono {enter more : δ → Option Bool} (agree : ∀ d r, enter d = some r → more d = some r)
    {l : List (WalkStep δ)} {r : Bool} (result : runSteps enter l = some r) : runSteps more l = some r := by
  induction l with
  | nil => exact result
  | cons s rest ih =>
    cases s with
    | leaf passes =>
      rw [runSteps] at result ⊢
      split at result
      · rename_i yes
        rw [if_pos yes]
        exact ih result
      · rename_i no
        rw [if_neg no]
        exact result
    | into child =>
      rw [runSteps] at result ⊢
      cases entered : enter child with
      | none =>
        rw [entered] at result
        cases result
      | some passed =>
        rw [entered] at result
        rw [agree child passed entered]
        cases passed with
        | true => exact ih result
        | false => exact result

theorem treeWalk_mono {fuel more : Nat} (le : fuel ≤ more) {d : δ} {r : Bool} (result : treeWalk steps fuel d = some r) :
    treeWalk steps more d = some r := by
  induction fuel generalizing more d r with
  | zero => cases result
  | succ fuel ih =>
    cases more with
    | zero => exact absurd le (Nat.not_succ_le_zero fuel)
    | succ more => exact runSteps_mono (fun _ _ entered => ih (Nat.le_of_succ_le_succ le) entered) result

theorem WalkPasses.of_result {fuel : Nat} {d : δ} (passes : WalkPasses steps d) {r : Bool}
    (result : treeWalk steps fuel d = some r) : r = true := by
  rcases passes with ⟨other, passed⟩
  have first := treeWalk_mono (Nat.le_max_left fuel other) result
  have second := treeWalk_mono (Nat.le_max_right fuel other) passed
  exact Option.some.inj (first.symm.trans second)

theorem runSteps_append {fuel : Nat} {before rest : List (WalkStep δ)} (pass : ∀ s ∈ before, StepPasses steps s)
    (returns : runSteps (treeWalk steps fuel) (before ++ rest) ≠ none) : runSteps (treeWalk steps fuel) rest ≠ none := by
  induction before with
  | nil => exact returns
  | cons s before ih =>
    rcases List.forall_mem_cons.mp pass with ⟨own, others⟩
    refine ih others ?_
    cases s with
    | leaf passes =>
      have yes : passes = true := own
      rw [List.cons_append, runSteps, if_pos yes] at returns
      exact returns
    | into child =>
      rw [List.cons_append, runSteps] at returns
      cases entered : treeWalk steps fuel child with
      | none =>
        rw [entered] at returns
        exact absurd rfl returns
      | some r =>
        have passed : r = true := WalkPasses.of_result own entered
        rw [entered, passed] at returns
        exact returns

theorem Leads.returns {fuel : Nat} {d child : δ} (leads : Leads steps d child)
    (returns : treeWalk steps (fuel + 1) d ≠ none) : treeWalk steps fuel child ≠ none := by
  rcases leads with ⟨before, after, listed, pass⟩
  rw [treeWalk, listed] at returns
  intro none
  refine runSteps_append pass returns ?_
  rw [runSteps, none]

/-- A step after the other: what the walk comes to returns, so the rest of the steps does. -/
theorem runSteps_returns {d : δ} (each : ∀ child, Leads steps d child → WalkReturns steps child)
    {before rest : List (WalkStep δ)} (listed : steps d = before ++ rest) (pass : ∀ s ∈ before, StepPasses steps s) :
    ∃ fuel, runSteps (treeWalk steps fuel) rest ≠ none := by
  induction rest generalizing before with
  | nil => exact ⟨0, nofun⟩
  | cons s rest ih =>
    have next : StepPasses steps s → ∃ fuel, runSteps (treeWalk steps fuel) rest ≠ none := by
      intro own
      refine @ih (before ++ [s]) ?_ ?_
      · rw [listed, List.append_assoc]
        rfl
      · intro t member
        rcases List.mem_append.mp member with earlier | last
        · exact pass t earlier
        · rw [List.mem_singleton.mp last]
          exact own
    cases s with
    | leaf passes =>
      by_cases yes : passes = true
      · rcases next yes with ⟨fuel, returns⟩
        refine ⟨fuel, ?_⟩
        rw [runSteps, if_pos yes]
        exact returns
      · refine ⟨0, ?_⟩
        rw [runSteps, if_neg yes]
        exact nofun
    | into child =>
      rcases each child ⟨before, rest, listed, pass⟩ with ⟨fuel, entered⟩
      cases result : treeWalk steps fuel child with
      | none => exact absurd result entered
      | some r =>
        cases r with
        | false =>
          refine ⟨fuel, ?_⟩
          rw [runSteps, result]
          exact nofun
        | true =>
          rcases next ⟨fuel, result⟩ with ⟨other, returns⟩
          refine ⟨max fuel other, ?_⟩
          rw [runSteps, treeWalk_mono (Nat.le_max_left fuel other) result]
          cases behind : runSteps (treeWalk steps other) rest with
          | none => exact absurd behind returns
          | some r =>
            have later := runSteps_mono (fun _ _ => treeWalk_mono (Nat.le_max_right fuel other)) behind
            dsimp only
            rw [later]
            exact nofun

theorem walkReturns_iff_acc (d : δ) : WalkReturns steps d ↔ Acc (fun child d => Leads steps d child) d := by
  constructor
  · rintro ⟨fuel, returns⟩
    induction fuel generalizing d with
    | zero => exact absurd rfl returns
    | succ fuel ih => exact Acc.intro d fun child leads => ih child (leads.returns returns)
  · intro acc
    induction acc with
    | intro d _ ih =>
      rcases runSteps_returns ih (List.nil_append _).symm (fun s none => absurd none List.not_mem_nil) with ⟨fuel, returns⟩
      exact ⟨fuel + 1, returns⟩

theorem walkReturns_iff_acyclic {steps : Nat → List (WalkStep Nat)} {bound : Nat}
    (small : ∀ d child, .into child ∈ steps d → child < bound) (d : Nat) :
    WalkReturns steps d ↔ ¬ Loops (Leads steps) d := by
  rw [walkReturns_iff_acc]
  apply acc_iff_acyclic_of_lt
  rintro parent child ⟨before, after, listed, _⟩
  apply small parent child
  rw [listed]
  exact List.mem_append_right _ List.mem_cons_self

end TreeWalk

end Storage
