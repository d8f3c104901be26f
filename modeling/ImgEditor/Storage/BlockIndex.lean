import Mathlib.Data.List.GetD
import Mathlib.Tactic.Ring

namespace Storage

def gather {α β : Type} (f : α → Option (List β)) : List α → Option (List β)
  | [] => some []
  | a :: rest => (f a).bind fun head => (gather f rest).map fun tail => head ++ tail

section Gather

variable {α β : Type} {f g : α → Option (List β)}

theorem gather_append (first second : List α) :
    gather f (first ++ second) = (gather f first).bind fun head => (gather f second).map fun tail => head ++ tail := by
  induction first with
  | nil => simp [gather]
  | cons a rest ih =>
    rw [List.cons_append, gather, gather, ih]
    cases f a with
    | none => rfl
    | some head =>
      cases gather f rest with
      | none => rfl
      | some middle => simp [Option.map_map, Function.comp_def]

theorem gather_map {γ : Type} (h : γ → α) (list : List γ) : gather f (list.map h) = gather (fun c => f (h c)) list := by
  induction list with
  | nil => rfl
  | cons c rest ih => rw [List.map_cons, gather, gather, ih]

theorem gather_filter {keep : α → Bool} {part : β → Bool} {list : List α}
    (kept : ∀ a ∈ list, keep a = true → g a = (f a).map (List.filter part))
    (dropped : ∀ a ∈ list, keep a = false → (f a).map (List.filter part) = some []) :
    gather g (list.filter keep) = (gather f list).map (List.filter part) := by
  induction list with
  | nil => rfl
  | cons a rest ih =>
    have tail := ih (fun b among => kept b (List.mem_cons_of_mem _ among))
      (fun b among => dropped b (List.mem_cons_of_mem _ among))
    cases stays : keep a with
    | true =>
      rw [List.filter_cons_of_pos stays, gather, gather, tail, kept a List.mem_cons_self stays]
      cases f a with
      | none => rfl
      | some head => cases gather f rest <;> simp
    | false =>
      have none := dropped a List.mem_cons_self stays
      rw [List.filter_cons_of_neg (by simp [stays]), tail, gather]
      cases found : f a with
      | none => simp [found] at none
      | some head =>
        rw [found, Option.map_some, Option.some.injEq] at none
        cases gather f rest <;> simp [none]

theorem gather_skip {list : List Nat} {h : Nat → Option (List β)} :
    gather (fun n => if n = 0 then some [] else h n) list = gather h (list.filter (· ≠ 0)) := by
  induction list with
  | nil => rfl
  | cons n rest ih =>
    by_cases zero : n = 0
    · rw [List.filter_cons_of_neg (by simpa using zero), ← ih, gather, if_pos zero]
      simp
    · rw [List.filter_cons_of_pos (by simpa using zero), gather, gather, if_neg zero, ih]

theorem gather_some {list : List α} (all : ∀ a ∈ list, ∃ part, f a = some part) : ∃ whole, gather f list = some whole := by
  induction list with
  | nil => exact ⟨[], rfl⟩
  | cons a rest ih =>
    obtain ⟨head, first⟩ := all a List.mem_cons_self
    obtain ⟨tail, later⟩ := ih fun b among => all b (List.mem_cons_of_mem _ among)
    exact ⟨head ++ tail, by rw [gather, first, later]; rfl⟩

theorem gather_getElem? {f : Nat → Option (List β)} {width : Nat} (positive : 0 < width) {list : List Nat}
    {all : List β} (found : gather f list = some all)
    (widths : ∀ n ∈ list, ∀ part, f n = some part → part.length = width) :
    all.length = list.length * width ∧ ∀ k < list.length * width, ∃ part, f (list.getD (k / width) 0) = some part ∧
      all[k]? = part[k % width]? := by
  induction list generalizing all with
  | nil =>
    obtain rfl := Option.some.inj found
    refine ⟨by simp, ?_⟩
    intro k bound
    simp at bound
  | cons n rest ih =>
    obtain ⟨head, first, others⟩ := Option.bind_eq_some_iff.mp found
    obtain ⟨tail, later, rfl⟩ := Option.map_eq_some_iff.mp others
    have length := widths n List.mem_cons_self head first
    obtain ⟨total, positions⟩ := ih later fun m among => widths m (List.mem_cons_of_mem _ among)
    refine ⟨by rw [List.length_append, length, total, List.length_cons]; ring, ?_⟩
    intro k bound
    rw [List.length_cons, Nat.succ_mul] at bound
    by_cases here : k < width
    · refine ⟨head, ?_, ?_⟩
      · rw [Nat.div_eq_of_lt here]
        exact first
      · rw [List.getElem?_append_left (by omega), Nat.mod_eq_of_lt here]
    · obtain ⟨part, stored, same⟩ := positions (k - width) (by omega)
      have index : k / width = (k - width) / width + 1 := by
        rw [← Nat.add_div_right _ positive, Nat.sub_add_cancel (by omega)]
      refine ⟨part, ?_, ?_⟩
      · rw [index]
        exact stored
      · rw [List.getElem?_append_right (by omega), length, same, ← Nat.sub_add_cancel (show width ≤ k by omega),
          Nat.add_mod_right, Nat.add_sub_cancel]

end Gather

/-- Nodes with a fixed number of entries each, the entry 0 stands for a node or a block that is not there. -/
structure BlockIndex where
  fanout : Nat
  entries : Nat → Option (List Nat)
  complete : ∀ {n list}, entries n = some list → list.length = fanout

namespace BlockIndex

variable (ix : BlockIndex)

/-- The block at a position below an entry, from the digits of the position. -/
def lookup : Nat → Nat → Nat → Option Nat
  | 0, n, _ => some n
  | level + 1, n, k =>
    if n = 0 then some 0
    else (ix.entries n).bind fun list => lookup level (list.getD (k / ix.fanout ^ level) 0) (k % ix.fanout ^ level)

def slots : Nat → Nat → Option (List Nat)
  | 0, n => some [n]
  | level + 1, n =>
    if n = 0 then some (List.replicate (ix.fanout ^ (level + 1)) 0) else (ix.entries n).bind (gather (slots level))

/-- The blocks below an entry in the order of a walk that skips what is not there. -/
def walk : Nat → Nat → Option (List Nat)
  | 0, n => some [n]
  | level + 1, n => (ix.entries n).bind fun list => gather (walk level) (list.filter (· ≠ 0))

/-- The block at a position below several entries, each with its level. There is none behind the last one. -/
def forestLookup : List (Nat × Nat) → Nat → Option Nat
  | [], _ => some 0
  | (level, n) :: rest, k =>
    if k < ix.fanout ^ level then ix.lookup level n k else forestLookup rest (k - ix.fanout ^ level)

def forestSlots (roots : List (Nat × Nat)) : Option (List Nat) := gather (fun root => ix.slots root.1 root.2) roots

variable {ix}

theorem slots_length {level n : Nat} {all : List Nat} (positive : 0 < ix.fanout) (found : ix.slots level n = some all) :
    all.length = ix.fanout ^ level := by
  induction level generalizing n all with
  | zero =>
    obtain rfl := Option.some.inj found
    rfl
  | succ level ih =>
    rw [slots] at found
    split at found
    · obtain rfl := Option.some.inj found
      rw [List.length_replicate]
    · obtain ⟨list, entries, below⟩ := Option.bind_eq_some_iff.mp found
      have width := (gather_getElem? (Nat.pow_pos positive) below fun m _ part stored => ih stored).1
      rw [width, ix.complete entries, Nat.pow_succ]
      ring

/-- The list of all positions has at each position what the digits lead to. -/
theorem slots_lookup {level n k : Nat} {all : List Nat} (positive : 0 < ix.fanout) (found : ix.slots level n = some all)
    (inside : k < ix.fanout ^ level) : all[k]? = ix.lookup level n k := by
  induction level generalizing n k all with
  | zero =>
    obtain rfl := Option.some.inj found
    obtain rfl : k = 0 := by simpa using inside
    rfl
  | succ level ih =>
    rw [slots] at found
    rw [lookup]
    split at found
    · next zero =>
      obtain rfl := Option.some.inj found
      rw [if_pos zero, List.getElem?_replicate, if_pos inside]
    · next present =>
      obtain ⟨list, entries, below⟩ := Option.bind_eq_some_iff.mp found
      have powers : 0 < ix.fanout ^ level := Nat.pow_pos positive
      have bound : k < list.length * ix.fanout ^ level := by
        rw [ix.complete entries, Nat.mul_comm, ← Nat.pow_succ]
        exact inside
      obtain ⟨part, stored, same⟩ :=
        (gather_getElem? powers below fun m _ part stored => slots_length positive stored).2 k bound
      rw [if_neg present, entries, Option.bind_some, same]
      exact ih stored (Nat.mod_lt _ powers)

/-- A walk finds the blocks that are there, in the order of their positions. -/
theorem walk_eq (level : Nat) {n : Nat} (present : n ≠ 0) :
    ix.walk level n = (ix.slots level n).map (List.filter (· ≠ 0)) := by
  induction level generalizing n with
  | zero => simp [walk, slots, present]
  | succ level ih =>
    rw [walk, slots, if_neg present]
    cases ix.entries n with
    | none => rfl
    | some list =>
      rw [Option.bind_some, Option.bind_some]
      apply gather_filter
      · intro m _ there
        exact ih (by simpa using there)
      · intro m _ absent
        obtain rfl : m = 0 := by simpa using absent
        cases level with
        | zero => rfl
        | succ level => simp [slots]

theorem forestSlots_lookup {roots : List (Nat × Nat)} {all : List Nat} (positive : 0 < ix.fanout)
    (found : ix.forestSlots roots = some all) (k : Nat) : ix.forestLookup roots k = some (all.getD k 0) := by
  induction roots generalizing k all with
  | nil =>
    obtain rfl := Option.some.inj found
    rfl
  | cons root rest ih =>
    obtain ⟨level, n⟩ := root
    obtain ⟨head, first, others⟩ := Option.bind_eq_some_iff.mp found
    obtain ⟨tail, later, rfl⟩ := Option.map_eq_some_iff.mp others
    have length : head.length = ix.fanout ^ level := slots_length positive first
    rw [forestLookup]
    by_cases here : k < ix.fanout ^ level
    · have entry := slots_lookup positive first here
      rw [List.getElem?_eq_getElem (by rw [length]; exact here)] at entry
      rw [if_pos here, ← entry, List.getD_append _ _ _ _ (by rw [length]; exact here),
        List.getD_eq_getElem _ _ (by rw [length]; exact here)]
    · rw [if_neg here, ih later, List.getD_append_right _ _ _ _ (by rw [length]; omega), length]

def present (root : Nat × Nat) : Option (List Nat) := if root.2 = 0 then some [] else ix.walk root.1 root.2

theorem gather_present (roots : List (Nat × Nat)) :
    gather ix.present roots = (ix.forestSlots roots).map (List.filter (· ≠ 0)) := by
  have all : roots.filter (fun _ => true) = roots := List.filter_eq_self.mpr fun _ _ => rfl
  conv_lhs => rw [← all]
  apply gather_filter
  · intro root _ _
    rw [present]
    split
    · next absent =>
      rw [absent]
      cases root.1 with
      | zero => rfl
      | succ level => simp [slots]
    · next there => exact ix.walk_eq root.1 there
  · intro _ _ never
    cases never

end BlockIndex

/-! A list without its zero entries. -/

section Compact

variable {list : List Nat}

theorem compact_front {k : Nat} (solid : ∀ i ≤ k, list[i]? ≠ some 0) (inside : k < list.length) :
    (list.filter (· ≠ 0))[k]? = list[k]? := by
  induction list generalizing k with
  | nil => simp at inside
  | cons head tail ih =>
    have nonzero : head ≠ 0 := fun zero => solid 0 (Nat.zero_le _) (by simp [zero])
    rw [List.filter_cons_of_pos (by simpa using nonzero)]
    cases k with
    | zero => rfl
    | succ k =>
      rw [List.getElem?_cons_succ, List.getElem?_cons_succ]
      exact ih (fun i le => by simpa using solid (i + 1) (by omega)) (by simpa using inside)

/-- Behind a zero every entry moves to the front, but not in front of that zero. -/
theorem compact_moved {k a : Nat} (entry : list[k]? = some a) (nonzero : a ≠ 0) (hole : ∃ i ≤ k, list[i]? = some 0) :
    ∃ j < k, (list.filter (· ≠ 0))[j]? = some a ∧ ∃ i ≤ j, list[i]? = some 0 := by
  classical
  have first := Nat.find_spec hole
  have least := fun i (below : i < Nat.find hole) => Nat.find_min hole below
  generalize Nat.find hole = h at first least
  obtain ⟨le, zero⟩ := first
  have before : h < k := by
    rcases Nat.lt_or_eq_of_le le with below | same
    · exact below
    · rw [same, entry, Option.some.injEq] at zero
      exact absurd zero nonzero
  have bound : k < list.length := (List.getElem?_eq_some_iff.mp entry).1
  have split : list = list.take k ++ a :: list.drop (k + 1) := by
    have value : list[k] = a := (List.getElem?_eq_some_iff.mp entry).2
    rw [← value, ← List.drop_eq_getElem_cons, List.take_append_drop]
  have lost : ((list.take k).filter (· ≠ 0)).length < k := by
    have strict : ((list.take k).filter (· ≠ 0)).length < (list.take k).length := by
      apply List.length_filter_lt_length_iff_exists.mpr
      refine ⟨0, ?_, by simp⟩
      exact List.mem_of_getElem? (i := h) (by rw [List.getElem?_take_of_lt before]; exact zero)
    have width := List.length_take_le k list
    omega
  have solid : ((list.take h).filter (· ≠ 0)) = list.take h := by
    apply List.filter_eq_self.mpr
    intro b among
    obtain ⟨i, at_⟩ := List.mem_iff_getElem?.mp among
    rw [List.getElem?_take] at at_
    split at at_
    · next below =>
      have other := least i below
      simp only [not_and] at other
      have here := other (by omega)
      rw [at_] at here
      simpa using here
    · cases at_
  have kept : h ≤ ((list.take k).filter (· ≠ 0)).length := by
    have parts : list.take k = list.take h ++ (list.take k).drop h := by
      conv_lhs => rw [← List.take_append_drop h (list.take k), List.take_take, Nat.min_eq_left (by omega)]
    rw [parts, List.filter_append, solid, List.length_append, List.length_take]
    omega
  have whole : list.filter (· ≠ 0) = (list.take k).filter (· ≠ 0) ++ a :: (list.drop (k + 1)).filter (· ≠ 0) := by
    conv_lhs => rw [split]
    rw [List.filter_append, List.filter_cons_of_pos (by simpa using nonzero)]
  refine ⟨_, lost, ?_, h, kept, zero⟩
  rw [whole, List.getElem?_append_right (le_refl _), Nat.sub_self]
  rfl

end Compact

end Storage
