import ImgEditor.Fs.UbiDent
import ImgEditor.Storage.TreeWalk

namespace ImgEditor

open Storage

abbrev NodePlace := BitVec 32 × BitVec 32

variable (readLeb : BitVec 32 → Option (List Byte)) (fanout : Nat)

def indexNodeAt (place : NodePlace) : Option IndexNode := ubiBptreeLoadIndexNode readLeb fanout place.1 place.2

/-- `ubi_bptree_load` without its recursion: only a level of 0 keeps it from the children. -/
def bptreeLoad (place : NodePlace) : List (WalkStep NodePlace) :=
  match indexNodeAt readLeb fanout place with
  | none => [.leaf false]
  | some self => if self.level = 0 then [] else self.childLeafs.map fun leaf => .into (leaf.selfLnum, leaf.selfOffs)

/-- On the flash, the level of a child is below the one of its parent, wherever the load comes to. -/
def LevelsFall (root : NodePlace) : Prop :=
  ∀ place child self below, Relation.ReflTransGen (Leads (bptreeLoad readLeb fanout)) root place →
    Leads (bptreeLoad readLeb fanout) place child → indexNodeAt readLeb fanout place = some self →
    indexNodeAt readLeb fanout child = some below → below.level < self.level

variable {readLeb fanout}

theorem loadChilds_isSome {load : BitVec 32 → BitVec 32 → Option UbiBranch} {enter : NodePlace → Option Bool}
    (agree : ∀ place, (load place.1 place.2).isSome ↔ enter place = some true) (leafs : List UbiLeafNode) :
    (loadChilds load leafs).isSome ↔ runSteps enter (leafs.map fun leaf => .into (leaf.selfLnum, leaf.selfOffs)) = some true := by
  induction leafs with
  | nil => exact iff_of_true rfl rfl
  | cons leaf rest ih =>
    have same := agree (leaf.selfLnum, leaf.selfOffs)
    rw [List.map_cons, runSteps]
    cases loaded : load leaf.selfLnum leaf.selfOffs with
    | none =>
      rw [loaded] at same
      refine iff_of_false (by simp [loadChilds, loaded]) ?_
      intro passed
      cases entered : enter (leaf.selfLnum, leaf.selfOffs) with
      | none =>
        rw [entered] at passed
        cases passed
      | some r =>
        cases r with
        | true => cases same.mpr entered
        | false =>
          rw [entered] at passed
          cases passed
    | some child =>
      rw [loaded] at same
      rw [same.mp rfl, ← ih]
      cases linked : loadChilds load rest with
      | none => simp [loadChilds, loaded, linked]
      | some entries => simp [loadChilds, loaded, linked]

/-- The walk passes with some fuel exactly if the tree is loaded with it. -/
theorem ubiBptreeLoad_isSome (fuel : Nat) (place : NodePlace) :
    (ubiBptreeLoad readLeb fanout fuel place.1 place.2).isSome ↔
      treeWalk (bptreeLoad readLeb fanout) fuel place = some true := by
  induction fuel generalizing place with
  | zero =>
    apply iff_of_false
    all_goals
      intro wrong
      cases wrong
  | succ fuel ih =>
    have childs := loadChilds_isSome (fun place => ih place)
    rw [treeWalk, bptreeLoad, ubiBptreeLoad, indexNodeAt]
    cases node : ubiBptreeLoadIndexNode readLeb fanout place.1 place.2 with
    | none =>
      apply iff_of_false
      all_goals
        intro wrong
        cases wrong
    | some self =>
      by_cases bottom : self.level = 0
      · simp [bottom, runSteps]
      · have same := childs self.childLeafs
        simp only [bottom, if_false, Option.bind_eq_bind, Option.bind_some, ← same]
        cases linked : loadChilds (ubiBptreeLoad readLeb fanout fuel) self.childLeafs with
        | none => rfl
        | some entries => rfl

theorem leads_loads {place child : NodePlace} (leads : Leads (bptreeLoad readLeb fanout) place child) :
    ∃ self, indexNodeAt readLeb fanout place = some self := by
  rcases leads with ⟨before, after, listed, _⟩
  cases node : indexNodeAt readLeb fanout place with
  | some self => exact ⟨self, rfl⟩
  | none =>
    have member : .into child ∈ bptreeLoad readLeb fanout place := by
      rw [listed]
      exact List.mem_append_right _ List.mem_cons_self
    rw [bptreeLoad, node] at member
    cases List.mem_singleton.mp member

theorem LevelsFall.below {root place under : NodePlace} (fall : LevelsFall readLeb fanout root)
    (reached : Relation.ReflTransGen (Leads (bptreeLoad readLeb fanout)) root place)
    (down : Relation.TransGen (Leads (bptreeLoad readLeb fanout)) place under) {self below : IndexNode}
    (node : indexNodeAt readLeb fanout place = some self) (other : indexNodeAt readLeb fanout under = some below) :
    below.level < self.level := by
  induction down generalizing below with
  | single step => exact fall _ _ _ _ reached step node other
  | tail steps step ih =>
    rcases leads_loads step with ⟨between, there⟩
    have last := fall _ _ _ _ (reached.trans steps.to_reflTransGen) step there other
    exact BitVec.lt_trans last (ih there)

/-- The load returns exactly if it does not come to an index node below itself; falling levels would be enough, and
are not checked. -/
theorem bptreeLoad_returns_iff (readLeb : BitVec 32 → Option (List Byte)) (fanout : Nat) (root : NodePlace) :
    (WalkReturns (bptreeLoad readLeb fanout) root ↔ ¬ Loops (Leads (bptreeLoad readLeb fanout)) root) ∧
      (LevelsFall readLeb fanout root → WalkReturns (bptreeLoad readLeb fanout) root) := by
  have returns : WalkReturns (bptreeLoad readLeb fanout) root ↔ ¬ Loops (Leads (bptreeLoad readLeb fanout)) root := by
    have finite : Finite (BitVec 32) := Finite.of_injective BitVec.toFin fun _ _ same => congrArg BitVec.ofFin same
    rw [walkReturns_iff_acc, acc_iff_acyclic (Set.toFinite _)]
  refine ⟨returns, fun fall => returns.mpr ?_⟩
  rintro ⟨place, reached, back⟩
  rcases Relation.TransGen.head'_iff.mp back with ⟨child, first, _⟩
  rcases leads_loads first with ⟨self, node⟩
  exact absurd (fall.below reached back node node) (BitVec.lt_irrefl _)

/-- An index node of level 1 whose only branch is the node itself. -/
def selfIndexLeb : List Byte :=
  let node := List.replicate 8 0#8 ++ leBytes 4 48 ++ [9#8, 0#8, 0#8, 0#8, 1#8, 0#8, 1#8, 0#8] ++ List.replicate 20 0#8
  leBytes 4 UBIFS_NODE_MAGIC ++ leBytes 4 (ubiCrc32 node).toNat ++ node

def selfIndexRead (_lnum : BitVec 32) : Option (List Byte) :=
  if ubifsChIsGood selfIndexLeb 126976 then some selfIndexLeb else none

theorem selfIndex_steps : bptreeLoad selfIndexRead 8 (0, 0) = [.into (0, 0)] := by
  decide +kernel

theorem bptreeLoad_never_returns : ¬ WalkReturns (bptreeLoad selfIndexRead 8) (0, 0) := by
  have leads : Leads (bptreeLoad selfIndexRead 8) (0, 0) (0, 0) :=
    ⟨[], [], selfIndex_steps, fun s none => absurd none List.not_mem_nil⟩
  rw [walkReturns_iff_acc]
  exact fun acc => not_transGen_of_acc acc (.single leads)

end ImgEditor
