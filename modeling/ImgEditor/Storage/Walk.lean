import Mathlib.Logic.Basic
import Mathlib.Order.Basic

namespace Storage

/-! Loops as a function from one state at their head to the next; `none` is the end. -/

section Walk

variable {σ : Type} (next : σ → Option σ)

/-- The states that a loop comes to. -/
inductive Visits (start : σ) : σ → Prop
  | start : Visits start start
  | step {s t : σ} (visited : Visits start s) (more : next s = some t) : Visits start t

def walk : Nat → σ → Option σ
  | 0, s => some s
  | n + 1, s => (next s).bind (walk n)

def Ends (start : σ) : Prop := ∃ n, walk next n start = none

def endState : Nat → σ → Option σ
  | 0, _ => none
  | n + 1, s =>
    match next s with
    | none => some s
    | some t => endState n t

variable {next} {start s t : σ}

/-- What every pass keeps holds in every state. -/
theorem Visits.invariant {I : σ → Prop} (visited : Visits next start s) (first : I start)
    (kept : ∀ s t, I s → next s = some t → I t) : I s := by
  induction visited with
  | start => exact first
  | step _ more ih => exact kept _ _ ih more

theorem Visits.trans (first : Visits next start s) (second : Visits next s t) : Visits next start t :=
  second.invariant first fun _ _ visited more => visited.step more

theorem Visits.of_next (more : next s = some t) : Visits next s t := Visits.start.step more

/-- Any state but the first one is visited behind the second. -/
theorem Visits.behind (visited : Visits next s t) (other : s ≠ t) : ∃ m, next s = some m ∧ Visits next m t := by
  induction visited with
  | start => exact absurd rfl other
  | step before more ih =>
    rename_i u v
    by_cases same : s = u
    · rw [← same] at more
      exact ⟨_, more, .start⟩
    · rcases ih same with ⟨m, second, behind⟩
      exact ⟨m, second, behind.step more⟩

/-- Of two states one is visited behind the other. -/
theorem Visits.linear (first : Visits next start s) (second : Visits next start t) :
    Visits next s t ∨ Visits next t s := by
  induction first with
  | start => exact .inl second
  | step before more ih =>
    rename_i u v
    rcases ih with ahead | behind
    · by_cases same : u = t
      · rw [← same]
        exact .inr (.of_next more)
      · rcases ahead.behind same with ⟨m, here, rest⟩
        obtain rfl := Option.some.inj (here.symm.trans more)
        exact .inl rest
    · exact .inr (behind.step more)

theorem walk_none_step {n : Nat} (ended : walk next n start = none) : walk next (n + 1) start = none := by
  induction n generalizing start with
  | zero => cases ended
  | succ n ih =>
    rw [walk] at ended ⊢
    cases more : next start with
    | none => rfl
    | some m =>
      rw [more] at ended
      exact ih ended

/-- A number that goes down with every pass bounds the passes. -/
theorem Ends.of_measure {I : σ → Prop} (size : σ → Nat) (first : I start)
    (kept : ∀ s t, I s → next s = some t → I t ∧ size t < size s) : Ends next start := by
  have bounded : ∀ n s, I s → size s < n → walk next n s = none := by
    intro n
    induction n with
    | zero => exact fun s _ less => absurd less (Nat.not_lt_zero _)
    | succ n ih =>
      intro s holds less
      rw [walk]
      cases more : next s with
      | none => rfl
      | some m =>
        rcases kept s m holds more with ⟨later, down⟩
        exact ih m later (by omega)
  exact ⟨_, bounded _ start first (Nat.lt_succ_self _)⟩

theorem Ends.visited (ends : Ends next start) (visited : Visits next start s) : Ends next s := by
  refine visited.invariant ends ?_
  rintro s t ⟨n, ended⟩ more
  refine ⟨n, ?_⟩
  have later := walk_none_step ended
  rw [walk, more] at later
  exact later

/-- A loop that always comes to a next state goes on for ever. -/
theorem not_ends {I : σ → Prop} (first : I start) (more : ∀ s, I s → ∃ t, next s = some t ∧ I t) : ¬ Ends next start := by
  rintro ⟨n, ended⟩
  induction n generalizing start with
  | zero => cases ended
  | succ n ih =>
    rcases more start first with ⟨t, passed, holds⟩
    rw [walk, passed] at ended
    exact ih holds ended

theorem ends_of_none (done : next s = none) : Ends next s := by
  refine ⟨1, ?_⟩
  rw [walk, done]
  rfl

/-- A loop ends exactly if it ends from a state that it comes to. -/
theorem Visits.ends_iff (visited : Visits next s t) : Ends next s ↔ Ends next t := by
  refine ⟨fun ends => ends.visited visited, ?_⟩
  induction visited with
  | start => exact id
  | step _ more ih =>
    rintro ⟨n, ended⟩
    apply ih
    refine ⟨n + 1, ?_⟩
    rw [walk, more]
    exact ended

/-- Two loops that go on alike from every state of the first one come to the same states. -/
theorem visits_congr {other : σ → Option σ} (same : ∀ s, Visits next start s → next s = other s) (s : σ) :
    Visits next start s ↔ Visits other start s := by
  constructor
  · intro visited
    induction visited with
    | start => exact .start
    | step before more ih => exact ih.step ((same _ before).symm.trans more)
  · intro visited
    induction visited with
    | start => exact .start
    | step before more ih => exact ih.step ((same _ ih).trans more)

theorem ends_congr {other : σ → Option σ} (same : ∀ s, Visits next start s → next s = other s) :
    Ends next start ↔ Ends other start := by
  have along : ∀ n s, Visits next start s → walk next n s = walk other n s := by
    intro n
    induction n with
    | zero => exact fun _ _ => rfl
    | succ n ih =>
      intro s visited
      rw [walk, walk, ← same s visited]
      cases more : next s with
      | none => rfl
      | some t => exact ih t (visited.step more)
  exact exists_congr fun n => by rw [along n start .start]

/-- A loop that always comes back to certain states goes on for ever. -/
theorem not_ends_of_return {R : σ → Prop} (first : R start)
    (again : ∀ s, R s → ∃ t m, R t ∧ next s = some m ∧ Visits next m t) : ¬ Ends next start := by
  apply not_ends (I := fun s => ∃ t, R t ∧ Visits next s t) ⟨start, first, .start⟩
  rintro s ⟨t, returned, ahead⟩
  by_cases same : s = t
  · rw [← same] at returned
    rcases again s returned with ⟨u, m, there, more, behind⟩
    exact ⟨m, more, u, there, behind⟩
  · rcases ahead.behind same with ⟨m, more, behind⟩
    exact ⟨m, more, t, returned, behind⟩

end Walk

end Storage
