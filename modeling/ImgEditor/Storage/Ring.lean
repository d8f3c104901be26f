import Mathlib.Data.List.Chain
import Mathlib.Data.List.Nodup
import Mathlib.Logic.Function.Basic

namespace Storage

/-- The two pointers of a cell; `none` is the null pointer. -/
structure Link (α : Type) where
  prev : Option α
  next : Option α

/-- The cells that are allocated. -/
abbrev Links (α : Type) := α → Option (Link α)

namespace Links

variable {α : Type}

def nextOf (m : Links α) (a : α) : Option (Option α) := (m a).map Link.next

def prevOf (m : Links α) (a : α) : Option (Option α) := (m a).map Link.prev

def Live (m : Links α) (a : α) : Prop := (m a).isSome

instance (m : Links α) (a : α) : Decidable (m.Live a) := inferInstanceAs (Decidable ((m a).isSome = true))

/-- What a pointer reads; `none` is a fault. -/
def getNext (m : Links α) (p : Option α) : Option (Option α) := p.bind m.nextOf

def getPrev (m : Links α) (p : Option α) : Option (Option α) := p.bind m.prevOf

@[simp] theorem getNext_some (m : Links α) (a : α) : m.getNext (some a) = m.nextOf a := rfl

@[simp] theorem getPrev_some (m : Links α) (a : α) : m.getPrev (some a) = m.prevOf a := rfl

theorem eq_link {m : Links α} {a : α} {p n : Option α} (prev : m.prevOf a = some p) (next : m.nextOf a = some n) :
    m a = some ⟨p, n⟩ := by
  unfold prevOf at prev
  unfold nextOf at next
  obtain ⟨link, held, rfl⟩ := Option.map_eq_some_iff.mp prev
  rw [held, Option.map_some, Option.some.injEq] at next
  rw [held, ← next]

variable [DecidableEq α]

def putNext (m : Links α) (a : α) (v : Option α) : Links α :=
  Function.update m a ((m a).map fun link => { link with next := v })

def putPrev (m : Links α) (a : α) (v : Option α) : Links α :=
  Function.update m a ((m a).map fun link => { link with prev := v })

def setNext (m : Links α) (p v : Option α) : Option (Links α) :=
  p.bind fun a => if m.Live a then some (m.putNext a v) else none

def setPrev (m : Links α) (p v : Option α) : Option (Links α) :=
  p.bind fun a => if m.Live a then some (m.putPrev a v) else none

/-- Fresh cells, filled with null pointers. -/
def acquire (m : Links α) (cells : List α) : Links α := fun a => if a ∈ cells then some ⟨none, none⟩ else m a

/-- Cells that go out of use; a cell that is not in use is a fault. -/
def release (m : Links α) (cells : List α) : Option (Links α) :=
  if ∀ a ∈ cells, m.Live a then some fun a => if a ∈ cells then none else m a else none

section Writes

variable (m : Links α) (a b : α) (v : Option α)

@[simp] theorem putNext_live : (m.putNext a v).Live b ↔ m.Live b := by
  unfold putNext Live
  by_cases same : b = a
  · subst same
    simp
  · simp [same]

@[simp] theorem putPrev_live : (m.putPrev a v).Live b ↔ m.Live b := by
  unfold putPrev Live
  by_cases same : b = a
  · subst same
    simp
  · simp [same]

theorem putNext_nextOf (live : m.Live a) : (m.putNext a v).nextOf b = if b = a then some v else m.nextOf b := by
  unfold putNext nextOf
  obtain ⟨link, held⟩ := Option.isSome_iff_exists.mp live
  by_cases same : b = a
  · subst same
    simp [held]
  · simp [same]

@[simp] theorem putNext_prevOf : (m.putNext a v).prevOf b = m.prevOf b := by
  unfold putNext prevOf
  by_cases same : b = a
  · subst same
    simp [Function.comp_def]
  · simp [same]

theorem putPrev_prevOf (live : m.Live a) : (m.putPrev a v).prevOf b = if b = a then some v else m.prevOf b := by
  unfold putPrev prevOf
  obtain ⟨link, held⟩ := Option.isSome_iff_exists.mp live
  by_cases same : b = a
  · subst same
    simp [held]
  · simp [same]

@[simp] theorem putPrev_nextOf : (m.putPrev a v).nextOf b = m.nextOf b := by
  unfold putPrev nextOf
  by_cases same : b = a
  · subst same
    simp [Function.comp_def]
  · simp [same]

theorem putNext_other (apart : b ≠ a) : m.putNext a v b = m b := Function.update_of_ne apart _ _

theorem putPrev_other (apart : b ≠ a) : m.putPrev a v b = m b := Function.update_of_ne apart _ _

theorem setNext_eq (live : m.Live a) : m.setNext (some a) v = some (m.putNext a v) := by
  rw [setNext, Option.bind_some, if_pos live]

theorem setPrev_eq (live : m.Live a) : m.setPrev (some a) v = some (m.putPrev a v) := by
  rw [setPrev, Option.bind_some, if_pos live]

end Writes

theorem release_eq {m : Links α} {cells : List α} (live : ∀ a ∈ cells, m.Live a) :
    m.release cells = some fun a => if a ∈ cells then none else m a := if_pos live

theorem acquire_other (m : Links α) {cells : List α} {a : α} (apart : a ∉ cells) : m.acquire cells a = m a :=
  if_neg apart

theorem acquire_live (m : Links α) {cells : List α} {a : α} (fresh : a ∈ cells) : (m.acquire cells).Live a := by
  rw [Live, acquire, if_pos fresh]
  rfl

end Links

section Ring

variable {α : Type}

/-- `v` comes right behind `u`, and both know it. -/
def Joined (m : Links α) (u v : α) : Prop := m.nextOf u = some (some v) ∧ m.prevOf v = some (some u)

/-- The cells of `l` in a circle. -/
structure Ring (m : Links α) (l : List α) : Prop where
  distinct : l.Nodup
  chain : l.IsChain (Joined m)
  seam : ∀ last ∈ l.getLast?, ∀ first ∈ l.head?, Joined m last first

variable {m m' : Links α} {l left right : List α} {a first last : α}

theorem Joined.live {u v : α} (joined : Joined m u v) : m.Live u ∧ m.Live v := by
  unfold Joined Links.nextOf Links.prevOf at joined
  obtain ⟨next, prev⟩ := joined
  obtain ⟨_, held, _⟩ := Option.map_eq_some_iff.mp next
  obtain ⟨_, held', _⟩ := Option.map_eq_some_iff.mp prev
  exact ⟨by rw [Links.Live, held]; rfl, by rw [Links.Live, held']; rfl⟩

/-- Neighbours inside a list without repetition are no end that faces out. -/
theorem chain_kept (distinct : l.Nodup) (chain : l.IsChain (Joined m))
    (next : ∀ u ∈ l, u ∉ l.getLast? → m'.nextOf u = m.nextOf u)
    (prev : ∀ v ∈ l, v ∉ l.head? → m'.prevOf v = m.prevOf v) : l.IsChain (Joined m') := by
  rw [List.isChain_iff_forall_rel_of_append_cons_cons] at chain ⊢
  rintro u v front back rfl
  have joined := chain rfl
  have apart := List.nodup_append.mp distinct
  constructor
  · rw [next u (by simp), joined.1]
    intro ends
    rw [List.getLast?_append_cons, List.getLast?_cons_cons] at ends
    have inside := List.mem_of_getLast? ends
    have unique := apart.2.1
    rw [List.nodup_cons] at unique
    exact unique.1 inside
  · rw [prev v (by simp), joined.2]
    intro starts
    cases front with
    | nil =>
      rw [List.nil_append, List.head?_cons, Option.mem_def, Option.some.injEq] at starts
      subst starts
      exact (List.nodup_cons.mp distinct).1 List.mem_cons_self
    | cons w front =>
      rw [List.cons_append, List.head?_cons, Option.mem_def, Option.some.injEq] at starts
      subst starts
      exact (List.nodup_cons.mp distinct).1 (by simp)

theorem Ring.rotate (ring : Ring m (left ++ right)) : Ring m (right ++ left) := by
  cases left with
  | nil => rwa [List.append_nil]
  | cons u left =>
    cases right with
    | nil => simpa using ring
    | cons v right =>
      have chains := List.isChain_append.mp ring.chain
      have seam := ring.seam
      rw [List.getLast?_append_cons] at seam
      constructor
      · exact List.nodup_append_comm.mp ring.distinct
      · apply List.isChain_append.mpr
        refine ⟨chains.2.1, chains.1, fun last ends first starts => ?_⟩
        exact seam last ends first starts
      · intro last ends first starts
        rw [List.getLast?_append_cons] at ends
        exact chains.2.2 last ends first starts

theorem Ring.live (ring : Ring m l) (member : a ∈ l) : m.Live a := by
  obtain ⟨front, back, rfl⟩ := List.append_of_mem member
  have turned := ring.rotate
  cases ends : (a :: back ++ front).getLast? with
  | none => simp at ends
  | some last => exact (turned.seam last ends a rfl).live.2

/-- A ring is a matter of its own cells. -/
theorem Ring.frame (ring : Ring m l) (same : ∀ a ∈ l, m' a = m a) : Ring m' l := by
  have next : ∀ a ∈ l, m'.nextOf a = m.nextOf a := fun a member => by rw [Links.nextOf, Links.nextOf, same a member]
  have prev : ∀ a ∈ l, m'.prevOf a = m.prevOf a := fun a member => by rw [Links.prevOf, Links.prevOf, same a member]
  constructor
  · exact ring.distinct
  · exact chain_kept ring.distinct ring.chain (fun u member _ => next u member) (fun v member _ => prev v member)
  · intro last ends first starts
    have joined := ring.seam last ends first starts
    rw [Joined, next last (List.mem_of_getLast? ends), prev first (List.mem_of_head? starts)]
    exact joined

theorem Ring.single (joined : Joined m a a) : Ring m [a] := by
  constructor
  · exact List.nodup_singleton a
  · exact List.isChain_singleton a
  · intro last ends first starts
    cases ends
    cases starts
    exact joined

/-- A cell that closes a chain to a ring. -/
theorem Ring.close (distinct : (a :: l).Nodup) (chain : l.IsChain (Joined m)) (starts : l.head? = some first)
    (ends : l.getLast? = some last) (front : Joined m a first) (back : Joined m last a) : Ring m (a :: l) := by
  constructor
  · exact distinct
  · apply List.isChain_cons.mpr
    refine ⟨fun b begins => ?_, chain⟩
    rw [starts] at begins
    cases begins
    exact front
  · intro b finishes c begins
    cases begins
    rw [List.getLast?_cons, ends] at finishes
    cases finishes
    exact back

/-- A cell that goes in between the last and the first. -/
theorem Ring.insert (ring : Ring m l) (fresh : a ∉ l) (starts : l.head? = some first) (ends : l.getLast? = some last)
    (front : Joined m' a first) (back : Joined m' last a)
    (next : ∀ u ∈ l, u ≠ last → m'.nextOf u = m.nextOf u) (prev : ∀ v ∈ l, v ≠ first → m'.prevOf v = m.prevOf v) :
    Ring m' (a :: l) := by
  apply Ring.close (List.nodup_cons.mpr ⟨fresh, ring.distinct⟩) _ starts ends front back
  apply chain_kept ring.distinct ring.chain
  · intro u member inside
    exact next u member fun same => inside (same ▸ ends)
  · intro v member inside
    exact prev v member fun same => inside (same ▸ starts)

/-- A cell that goes out, where its neighbours are joined. -/
theorem Ring.remove (ring : Ring m (a :: l)) (starts : l.head? = some first) (ends : l.getLast? = some last)
    (seam : Joined m' last first) (next : ∀ u ∈ l, u ≠ last → m'.nextOf u = m.nextOf u)
    (prev : ∀ v ∈ l, v ≠ first → m'.prevOf v = m.prevOf v) : Ring m' l := by
  have apart := List.nodup_cons.mp ring.distinct
  constructor
  · exact apart.2
  · apply chain_kept apart.2 (List.isChain_cons.mp ring.chain).2
    · intro u member inside
      exact next u member fun same => inside (same ▸ ends)
    · intro v member inside
      exact prev v member fun same => inside (same ▸ starts)
  · intro b finishes c begins
    rw [ends] at finishes
    rw [starts] at begins
    cases finishes
    cases begins
    exact seam

theorem Ring.neighbours (ring : Ring m (a :: l)) (starts : l.head? = some first) (ends : l.getLast? = some last) :
    Joined m a first ∧ Joined m last a := by
  constructor
  · exact (List.isChain_cons.mp ring.chain).1 first starts
  · exact ring.seam last (by rw [List.getLast?_cons, ends]; rfl) a rfl

theorem concat_starts (l : List α) (a : α) : ∃ first, (l ++ [a]).head? = some first := by
  rw [List.head?_append]
  cases l <;> exact ⟨_, rfl⟩

theorem Ring.nil : Ring m [] := by
  constructor
  · exact List.nodup_nil
  · exact List.isChain_nil
  · intro last ends
    cases ends

/-- What the pointers of the first cell lead to. -/
theorem Ring.next (ring : Ring m (a :: l)) (starts : (l ++ [a]).head? = some first) :
    m.nextOf a = some (some first) := by
  have turned : Ring m (l ++ [a]) := Ring.rotate (show Ring m ([a] ++ l) from ring)
  exact (turned.seam a List.getLast?_concat first starts).1

theorem Ring.prev (ring : Ring m (a :: l)) (ends : (a :: l).getLast? = some last) : m.prevOf a = some (some last) :=
  (ring.seam last ends a rfl).2

/-- What comes behind the first of the entries that are left. -/
theorem Ring.behind (ring : Ring m (a :: (left ++ right))) (starts : (right ++ [a]).head? = some first) :
    ∃ next, m.nextOf first = some (some next) ∧ (right ≠ [] → (right.tail ++ [a]).head? = some next) := by
  cases right with
  | nil =>
    obtain rfl : a = first := Option.some.inj starts
    obtain ⟨next, begins⟩ := concat_starts (left ++ []) a
    exact ⟨next, ring.next begins, fun some => absurd rfl some⟩
  | cons b right =>
    obtain rfl : b = first := Option.some.inj starts
    obtain ⟨next, begins⟩ := concat_starts right a
    have turned : Ring m (b :: (right ++ a :: left)) :=
      Ring.rotate (show Ring m ((a :: left) ++ (b :: right)) from ring)
    refine ⟨next, turned.next ?_, fun _ => begins⟩
    cases right with
    | nil => exact begins
    | cons c right => exact begins

/-- Nothing but the pointers of these cells has changed. -/
structure Rewired (cells : List α) (m m' : Links α) : Prop where
  other : ∀ b, b ∉ cells → m' b = m b
  live : ∀ b, m'.Live b ↔ m.Live b

variable {cells : List α}

theorem Rewired.refl : Rewired cells m m := ⟨fun _ _ => rfl, fun _ => Iff.rfl⟩

theorem Rewired.wider {more : List α} (rewired : Rewired cells m m') (le : ∀ a ∈ cells, a ∈ more) : Rewired more m m' :=
  ⟨fun b outside => rewired.other b fun inside => outside (le b inside), rewired.live⟩

theorem Rewired.trans {m'' : Links α} (rewired : Rewired cells m m') (again : Rewired cells m' m'') :
    Rewired cells m m'' :=
  ⟨fun b outside => (again.other b outside).trans (rewired.other b outside),
    fun b => (again.live b).trans (rewired.live b)⟩

/-- A ring away from what is rewired. -/
theorem Rewired.ring (rewired : Rewired cells m m') (ring : Ring m l) (apart : ∀ a ∈ l, a ∉ cells) : Ring m' l :=
  ring.frame fun a member => rewired.other a (apart a member)

variable [DecidableEq α]

theorem Rewired.putNext (rewired : Rewired cells m m') (v : Option α) (member : a ∈ cells) :
    Rewired cells m (m'.putNext a v) := by
  constructor
  · intro b outside
    have away : b ≠ a := fun same => outside (same ▸ member)
    rw [Links.putNext_other _ _ _ _ away, rewired.other b outside]
  · intro b
    rw [Links.putNext_live, rewired.live]

theorem Rewired.putPrev (rewired : Rewired cells m m') (v : Option α) (member : a ∈ cells) :
    Rewired cells m (m'.putPrev a v) := by
  constructor
  · intro b outside
    have away : b ≠ a := fun same => outside (same ▸ member)
    rw [Links.putPrev_other _ _ _ _ away, rewired.other b outside]
  · intro b
    rw [Links.putPrev_live, rewired.live]

end Ring

end Storage
