import Mathlib.Data.Set.Finite.Basic
import Mathlib.Data.Fintype.Order
import Mathlib.Logic.Relation
import Mathlib.Order.WellFounded

namespace Storage

/-! Relations that lead on from a node, as the children of a directory or the links of a list do. -/

section Acyclic

variable {δ : Type}

/-- A node that can be reached leads back to itself. -/
def Loops (r : δ → δ → Prop) (d : δ) : Prop := ∃ c, Relation.ReflTransGen r d c ∧ Relation.TransGen r c c

theorem not_transGen_of_acc {r : δ → δ → Prop} {d : δ} (acc : Acc (fun child d => r d child) d) : ¬ Relation.TransGen r d d := by
  induction acc with
  | intro d _ ih =>
    intro back
    rcases Relation.TransGen.head'_iff.mp back with ⟨child, first, rest⟩
    exact ih child first (Relation.TransGen.tail' rest first)

theorem acc_iff_acyclic {r : δ → δ → Prop} {d : δ} (few : {c | Relation.ReflTransGen r d c}.Finite) :
    Acc (fun child d => r d child) d ↔ ¬ Loops r d := by
  constructor
  · rintro acc ⟨c, reached, back⟩
    have there : Acc (fun child d => r d child) c := by
      clear back
      induction reached with
      | refl => exact acc
      | tail _ step ih => exact ih.inv step
    exact not_transGen_of_acc there back
  · intro acyclic
    have finite : Finite {c // Relation.ReflTransGen r d c} := few.to_subtype
    let below := fun x y : {c // Relation.ReflTransGen r d c} => Relation.TransGen r y.1 x.1
    have trans : IsTrans _ below := ⟨fun _ _ _ first second => second.trans first⟩
    have irrefl : Std.Irrefl below := ⟨fun x back => acyclic ⟨x.1, x.2, back⟩⟩
    have wellFounded : WellFounded below := Finite.wellFounded_of_trans_of_irrefl below
    have all : ∀ x : {c // Relation.ReflTransGen r d c}, Acc (fun child d => r d child) x.1 := by
      intro x
      induction x using wellFounded.induction with
      | _ x ih => exact Acc.intro x.1 fun child step => ih ⟨child, x.2.tail step⟩ (.single step)
    exact all ⟨d, .refl⟩

theorem acc_iff_acyclic_of_lt {r : Nat → Nat → Prop} {bound : Nat} (small : ∀ a b, r a b → b < bound) (d : Nat) :
    Acc (fun child d => r d child) d ↔ ¬ Loops r d := by
  apply acc_iff_acyclic
  refine ((Set.finite_lt_nat bound).insert d).subset ?_
  intro c reached
  rcases Relation.ReflTransGen.cases_tail reached with rfl | ⟨parent, _, step⟩
  · exact Set.mem_insert _ _
  · exact Set.mem_insert_of_mem _ (small parent c step)

end Acyclic

end Storage
