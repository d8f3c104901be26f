import Mathlib.Data.List.TakeWhile
import ImgEditor.Storage.BlockIndex

namespace Storage

theorem gather_length_le {α β : Type} {f : α → Option (List β)} {width : Nat} {list : List α} {all : List β}
    (found : gather f list = some all) (widths : ∀ a ∈ list, ∀ part, f a = some part → part.length ≤ width) :
    all.length ≤ list.length * width := by
  induction list generalizing all with
  | nil =>
    obtain rfl := Option.some.inj found
    exact Nat.zero_le _
  | cons a rest ih =>
    rcases Option.bind_eq_some_iff.mp found with ⟨head, first, others⟩
    rcases Option.map_eq_some_iff.mp others with ⟨tail, later, rfl⟩
    have front := widths a List.mem_cons_self head first
    have behind := ih later fun b among => widths b (List.mem_cons_of_mem _ among)
    rw [List.length_append, List.length_cons, Nat.succ_mul]
    omega

namespace BlockIndex

variable (ix : BlockIndex)

/-- The blocks below an entry in the order of a walk that leaves a node at its first entry that is not there. -/
def front : Nat → Nat → Option (List Nat)
  | 0, n => some [n]
  | level + 1, n => (ix.entries n).bind fun list => gather (front level) (list.takeWhile (· ≠ 0))

/-- As far as no position is empty, a list holds what the lookup finds. -/
def AgreesToHole (find : Nat → Option Nat) (width : Nat) (list : List Nat) : Prop :=
  ∀ m ≤ width, (∀ i < m, find i ≠ some 0) → m ≤ list.length ∧ ∀ i < m, list[i]? = find i

variable {ix}

theorem lookup_zero (level k : Nat) : ix.lookup level 0 k = some 0 := by
  cases level with
  | zero => rfl
  | succ level => rw [lookup, if_pos rfl]

/-- A forest of entries on one level is a node. -/
theorem forestLookup_level (positive : 0 < ix.fanout) (level : Nat) (list : List Nat) (k : Nat) :
    ix.forestLookup (list.map fun n => (level, n)) k =
      if k < list.length * ix.fanout ^ level then
        ix.lookup level (list.getD (k / ix.fanout ^ level) 0) (k % ix.fanout ^ level)
      else some 0 := by
  have powers : 0 < ix.fanout ^ level := Nat.pow_pos positive
  induction list generalizing k with
  | nil => rw [List.length_nil, Nat.zero_mul, if_neg (Nat.not_lt_zero k), List.map_nil, forestLookup]
  | cons n rest ih =>
    rw [List.map_cons, forestLookup, List.length_cons, Nat.succ_mul]
    by_cases here : k < ix.fanout ^ level
    · rw [if_pos here, if_pos (by omega), Nat.div_eq_of_lt here, Nat.mod_eq_of_lt here]
      rfl
    · have index : k / ix.fanout ^ level = (k - ix.fanout ^ level) / ix.fanout ^ level + 1 := by
        rw [← Nat.add_div_right _ powers, Nat.sub_add_cancel (by omega)]
      have rest_ : k % ix.fanout ^ level = (k - ix.fanout ^ level) % ix.fanout ^ level := by
        rw [← Nat.mod_eq_sub_mod (by omega)]
      rw [if_neg here, ih, index, rest_, List.getD_cons_succ]
      by_cases inside : k - ix.fanout ^ level < rest.length * ix.fanout ^ level
      · rw [if_pos inside, if_pos (by omega)]
      · rw [if_neg inside, if_neg (by omega)]

/-- What the fronts of the entries up to the first zero have in common with the lookup. -/
theorem gather_front_agrees {roots : List (Nat × Nat)} {list : List Nat}
    (positive : ∀ root ∈ roots, 0 < ix.fanout ^ root.1)
    (found : gather (fun root => ix.front root.1 root.2) (roots.takeWhile fun root => root.2 ≠ 0) = some list)
    (each : ∀ root ∈ roots, root.2 ≠ 0 → ∀ part, ix.front root.1 root.2 = some part →
      part.length ≤ ix.fanout ^ root.1 ∧ AgreesToHole (ix.lookup root.1 root.2) (ix.fanout ^ root.1) part) (width : Nat) :
    AgreesToHole (ix.forestLookup roots) width list := by
  induction roots generalizing list width with
  | nil =>
    intro m _ solid
    have none : m = 0 := by
      by_contra some
      exact solid 0 (Nat.pos_of_ne_zero some) rfl
    rw [none]
    exact ⟨Nat.zero_le _, nofun⟩
  | cons root rest ih =>
    rcases root with ⟨level, n⟩
    have powers : 0 < ix.fanout ^ level := positive _ List.mem_cons_self
    intro m _ solid
    by_cases absent : n = 0
    · -- the first position is empty
      have none : m = 0 := by
        by_contra some
        apply solid 0 (Nat.pos_of_ne_zero some)
        rw [forestLookup, if_pos powers, absent, lookup_zero]
      rw [none]
      exact ⟨Nat.zero_le _, nofun⟩
    rw [List.takeWhile_cons_of_pos (by simpa using absent)] at found
    rcases Option.bind_eq_some_iff.mp found with ⟨head, first, others⟩
    rcases Option.map_eq_some_iff.mp others with ⟨tail, later, rfl⟩
    rcases each _ List.mem_cons_self absent head first with ⟨short, agrees⟩
    dsimp only at short agrees
    have below {i : Nat} (here : i < ix.fanout ^ level) : ix.forestLookup ((level, n) :: rest) i = ix.lookup level n i := by
      rw [forestLookup, if_pos here]
    rw [List.length_append]
    by_cases inside : m ≤ ix.fanout ^ level
    · have same := agrees m inside fun i less => by
        rw [← below (by omega)]
        exact solid i less
      refine ⟨by omega, ?_⟩
      intro i less
      rw [List.getElem?_append_left (by omega), same.2 i less, below (by omega)]
    · have full := agrees (ix.fanout ^ level) (Nat.le_refl _) fun i less => by
        rw [← below less]
        exact solid i (by omega)
      have length : head.length = ix.fanout ^ level := by omega
      have behind {i : Nat} (beyond : ¬ i < ix.fanout ^ level) :
          ix.forestLookup ((level, n) :: rest) i = ix.forestLookup rest (i - ix.fanout ^ level) := by
        rw [forestLookup, if_neg beyond]
      have same := ih (fun other among => positive other (List.mem_cons_of_mem _ among)) later
        (fun other among => each other (List.mem_cons_of_mem _ among)) (m - ix.fanout ^ level)
        (m - ix.fanout ^ level) (Nat.le_refl _) fun i less => by
          have shifted := behind (show ¬ i + ix.fanout ^ level < ix.fanout ^ level by omega)
          rw [Nat.add_sub_cancel] at shifted
          rw [← shifted]
          exact solid _ (by omega)
      refine ⟨by omega, ?_⟩
      intro i less
      by_cases here : i < ix.fanout ^ level
      · rw [List.getElem?_append_left (by omega), full.2 i here, below here]
      · rw [List.getElem?_append_right (by omega), length, same.2 _ (by omega), behind here]

theorem front_zero_agrees {n : Nat} {list : List Nat} (found : ix.front 0 n = some list) :
    list.length ≤ ix.fanout ^ 0 ∧ AgreesToHole (ix.lookup 0 n) (ix.fanout ^ 0) list := by
  obtain rfl := Option.some.inj found
  refine ⟨Nat.le_refl 1, ?_⟩
  intro m inside _
  rw [Nat.pow_zero] at inside
  refine ⟨inside, ?_⟩
  intro i less
  obtain rfl : i = 0 := by omega
  rfl

theorem front_agrees (positive : 0 < ix.fanout) {level n : Nat} (present : n ≠ 0) {list : List Nat}
    (found : ix.front level n = some list) :
    list.length ≤ ix.fanout ^ level ∧ AgreesToHole (ix.lookup level n) (ix.fanout ^ level) list := by
  induction level generalizing n list with
  | zero => exact front_zero_agrees found
  | succ level ih =>
    rcases Option.bind_eq_some_iff.mp found with ⟨entries, stored, below⟩
    have count := ix.complete stored
    constructor
    · have bound := gather_length_le below fun m among part front => (ih (by simpa using List.mem_takeWhile_imp among) front).1
      have few := (List.takeWhile_sublist (· ≠ 0) (l := entries)).length_le
      rw [count] at few
      rw [Nat.pow_succ, Nat.mul_comm]
      exact bound.trans (Nat.mul_le_mul_right _ few)
    · intro m inside solid
      have node {i : Nat} (less : i < ix.fanout ^ (level + 1)) :
          ix.forestLookup (entries.map fun e => (level, e)) i = ix.lookup (level + 1) n i := by
        rw [forestLookup_level positive, lookup, if_neg present, stored, Option.bind_some, count]
        rw [Nat.pow_succ, Nat.mul_comm] at less
        rw [if_pos less]
      have roots : gather (fun root => ix.front root.1 root.2)
          ((entries.map fun e => (level, e)).takeWhile fun root => root.2 ≠ 0) = some list := by
        rw [List.takeWhile_map, gather_map]
        exact below
      have same := gather_front_agrees (by
        intro root among
        rcases List.mem_map.mp among with ⟨e, -, rfl⟩
        exact Nat.pow_pos positive) roots (by
        intro root among there part front
        rcases List.mem_map.mp among with ⟨e, -, rfl⟩
        exact ih there front) m m (Nat.le_refl m) fun i less => by
          rw [node (by omega)]
          exact solid i less
      refine ⟨same.1, ?_⟩
      intro i less
      rw [same.2 i less, node (by omega)]

theorem AgreesToHole.append {find : Nat → Option Nat} {width : Nat} {list : List Nat}
    (agrees : AgreesToHole find width list) (more : List Nat) : AgreesToHole find width (list ++ more) := by
  intro m inside solid
  rcases agrees m inside solid with ⟨room, same⟩
  rw [List.length_append]
  refine ⟨by omega, ?_⟩
  intro i less
  rw [List.getElem?_append_left (by omega), same i less]

variable (ix)

def frontPresent (root : Nat × Nat) : Option (List Nat) := if root.2 = 0 then some [] else ix.front root.1 root.2

/-- The nodes and entries that a walk to the front comes across, some of them twice. -/
def visited : Nat → Nat → List Nat
  | 0, n => [n]
  | level + 1, n =>
    n :: (((ix.entries n).getD []).takeWhile (· ≠ 0)).flatMap fun e => e :: visited level e

/-- The nodes and entries of an index, holes or not. -/
def Holds : Nat → Nat → Nat → Prop
  | 0, n, block => block = n
  | level + 1, n, block => block = n ∨ ∃ list, ix.entries n = some list ∧ ∃ e ∈ list, e ≠ 0 ∧ Holds level e block

variable {ix}

theorem holds_root (level n : Nat) : ix.Holds level n n := by
  cases level with
  | zero => rfl
  | succ level => exact .inl rfl

theorem holds_of_visited {level n block : Nat} (member : block ∈ ix.visited level n) : ix.Holds level n block := by
  induction level generalizing n with
  | zero => exact List.mem_singleton.mp member
  | succ level ih =>
    rcases List.mem_cons.mp member with here | below
    · exact .inl here
    · rcases List.mem_flatMap.mp below with ⟨e, entry, rest⟩
      have present : e ≠ 0 := by simpa using List.mem_takeWhile_imp entry
      have listed := (List.takeWhile_prefix _).subset entry
      cases stored : ix.entries n with
      | none =>
        rw [stored] at listed
        exact absurd listed List.not_mem_nil
      | some list =>
        rw [stored] at listed
        refine .inr ⟨list, stored, e, listed, present, ?_⟩
        rcases List.mem_cons.mp rest with same | deeper
        · rw [same]
          exact holds_root level e
        · exact ih deeper

theorem gather_frontPresent {roots : List (Nat × Nat)} {list : List Nat} (found : gather ix.frontPresent roots = some list) :
    ∃ first later, gather (fun root => ix.front root.1 root.2) (roots.takeWhile fun root => root.2 ≠ 0) = some first ∧
      list = first ++ later := by
  induction roots generalizing list with
  | nil => exact ⟨[], list, rfl, rfl⟩
  | cons root rest ih =>
    by_cases absent : root.2 = 0
    · refine ⟨[], list, ?_, rfl⟩
      rw [List.takeWhile_cons_of_neg (by simpa using absent)]
      rfl
    · rcases Option.bind_eq_some_iff.mp found with ⟨head, front, others⟩
      rcases Option.map_eq_some_iff.mp others with ⟨tail, behind, rfl⟩
      rcases ih behind with ⟨first, later, stored, rfl⟩
      rw [frontPresent, if_neg absent] at front
      refine ⟨head ++ first, later, ?_, (List.append_assoc ..).symm⟩
      rw [List.takeWhile_cons_of_pos (by simpa using absent), gather, front, stored]
      rfl

end BlockIndex

end Storage
