import Mathlib.Data.List.Pairwise
import Mathlib.Order.Lattice

namespace KeySearch

variable {α κ : Type} [LinearOrder κ]

def Inside (key : α → κ) (low high : κ) (entry : α) : Prop := low ≤ key entry ∧ key entry ≤ high

instance (key : α → κ) (low high : κ) : DecidablePred (Inside key low high) :=
  fun _ => inferInstanceAs (Decidable (_ ∧ _))

def Ordered (key : α → κ) (entries : List α) : Prop := entries.Pairwise fun a b => key a < key b

def Sorted (key : α → κ) (entries : List α) : Prop := entries.Pairwise fun a b => key a ≤ key b

/-- The answer of an interval query: an entry inside that no entry inside precedes, or none. -/
def FirstInside (key : α → κ) (low high : κ) (entries : List α) : Option α → Prop
  | some found => found ∈ entries ∧ Inside key low high found ∧
      ∀ other ∈ entries, Inside key low high other → key found ≤ key other
  | none => ∀ entry ∈ entries, ¬ Inside key low high entry

variable {key : α → κ} {low high : κ}

theorem Ordered.sorted {entries : List α} (ordered : Ordered key entries) : Sorted key entries :=
  ordered.imp fun below => below.le

theorem FirstInside.skip_empty {before after : List α} {answer : Option α}
    (outside : FirstInside key low high before none)
    (answered : FirstInside key low high after answer) :
    FirstInside key low high (before ++ after) answer := by
  cases answer with
  | none =>
    intro entry member
    rcases List.mem_append.mp member with member | member
    · exact outside entry member
    · exact answered entry member
  | some found =>
    obtain ⟨member, inside, least⟩ := answered
    refine ⟨List.mem_append.mpr (Or.inr member), inside, ?_⟩
    intro other otherMember otherInside
    rcases List.mem_append.mp otherMember with otherMember | otherMember
    · exact absurd otherInside (outside other otherMember)
    · exact least other otherMember otherInside

theorem FirstInside.skip {before after : List α} {answer : Option α}
    (below : ∀ entry ∈ before, key entry < low)
    (answered : FirstInside key low high after answer) :
    FirstInside key low high (before ++ after) answer := by
  apply FirstInside.skip_empty _ answered
  intro entry member inside
  exact absurd inside.1 (not_le.mpr (below entry member))

theorem FirstInside.stop {before after : List α} {answer : Option α} {reached : α}
    (sorted : Sorted key (before ++ after)) (member : reached ∈ before) (reaches : low ≤ key reached)
    (answered : FirstInside key low high before answer) :
    FirstInside key low high (before ++ after) answer := by
  have later : ∀ a ∈ before, ∀ b ∈ after, key a ≤ key b := (List.pairwise_append.mp sorted).2.2
  cases answer with
  | none =>
    intro entry entryMember inside
    rcases List.mem_append.mp entryMember with entryMember | entryMember
    · exact answered entry entryMember inside
    · have above := later reached member entry entryMember
      exact answered reached member ⟨reaches, above.trans inside.2⟩
  | some found =>
    obtain ⟨foundMember, inside, least⟩ := answered
    refine ⟨List.mem_append.mpr (Or.inl foundMember), inside, ?_⟩
    intro other otherMember otherInside
    rcases List.mem_append.mp otherMember with otherMember | otherMember
    · exact least other otherMember otherInside
    · exact later found foundMember other otherMember

theorem FirstInside.none_of_above {entries : List α} (above : ∀ entry ∈ entries, high < key entry) :
    FirstInside key low high entries none :=
  fun entry member inside => absurd inside.2 (not_le.mpr (above entry member))

theorem Ordered.key_unique {entries : List α} (ordered : Ordered key entries) {a b : α}
    (memberA : a ∈ entries) (memberB : b ∈ entries) (same : key a = key b) : a = b := by
  by_contra differ
  have symmetric : Std.Symm fun a b => key a ≠ key b := ⟨fun _ _ ne => ne.symm⟩
  have distinct : entries.Pairwise fun a b => key a ≠ key b := ordered.imp fun below => below.ne
  exact distinct.forall memberA memberB differ same

theorem firstInside_find? {entries : List α} (sorted : Sorted key entries) :
    FirstInside key low high entries (entries.find? fun entry => decide (Inside key low high entry)) := by
  induction entries with
  | nil => exact fun _ member => absurd member List.not_mem_nil
  | cons head tail ih =>
    obtain ⟨first, rest⟩ := List.pairwise_cons.mp sorted
    by_cases inside : Inside key low high head
    · rw [List.find?_cons_of_pos (by simpa using inside)]
      refine ⟨List.mem_cons_self, inside, ?_⟩
      intro other member _
      rcases List.mem_cons.mp member with rfl | member
      · exact le_refl _
      · exact first other member
    · rw [List.find?_cons_of_neg (by simpa using inside)]
      have outside : FirstInside key low high [head] none := by
        intro entry member
        rw [List.mem_singleton.mp member]
        exact inside
      exact FirstInside.skip_empty outside (ih rest)

theorem FirstInside.some_iff {entries : List α} {answer : Option α} (ordered : Ordered key entries)
    (answered : FirstInside key low high entries answer) (found : α) :
    answer = some found ↔ FirstInside key low high entries (some found) := by
  constructor
  · rintro rfl
    exact answered
  · rintro ⟨member, inside, least⟩
    cases answer with
    | none => exact absurd inside (answered found member)
    | some other =>
      obtain ⟨otherMember, otherInside, otherLeast⟩ := answered
      have same : key other = key found :=
        le_antisymm (otherLeast found member inside) (least other otherMember otherInside)
      rw [ordered.key_unique otherMember member same]

theorem FirstInside.none_iff {entries : List α} {answer : Option α}
    (answered : FirstInside key low high entries answer) :
    answer = none ↔ FirstInside key low high entries none := by
  constructor
  · rintro rfl
    exact answered
  · intro empty
    cases answer with
    | none => rfl
    | some found => exact absurd answered.2.1 (empty found answered.1)

end KeySearch
