import ImgEditor.Core.ListRuns

namespace ImgEditor

open Storage

/-- The list heads of the `struct device_node` at an address. -/
inductive DeviceNodeCell where
  | head (id : Nat)
  | child (id : Nat)
deriving DecidableEq

section Functions

/-- `new_device_node`, with the node that `calloc` hands out. -/
def newDeviceNodeHeap (id : Nat) (parent : Option Nat) (m : Links DeviceNodeCell) : Option (Links DeviceNodeCell) := do
  let m := m.acquire [.head id, .child id]
  let m ← listInit (some (.head id)) m
  let m ← listInit (some (.child id)) m
  match parent with
  | some parent => listAddTail (some (.head id)) (some (.child parent)) m
  | none => some m

def deviceNodeDelete : Nat → Nat → Links DeviceNodeCell → Option (Links DeviceNodeCell)
  | 0, _, _ => none
  | fuel + 1, root, m => do
    let m ← listForEachSafe (fun pos m =>
      match pos with
      | .head node => deviceNodeDelete fuel node m
      | .child _ => none) (some (.child root)) fuel m
    let m ← listDel (some (.head root)) m
    m.release [.head root, .child root]

inductive DeviceNodeCall where
  | new (id : Nat) (parent : Option Nat)
  | addFront (id parent : Nat)
  | delete (root : Nat)

def DeviceNodeCall.run (fuel : Nat) : DeviceNodeCall → Links DeviceNodeCell → Option (Links DeviceNodeCell)
  | .new id parent => newDeviceNodeHeap id parent
  | .addFront id parent => listAdd (some (.head id)) (some (.child parent))
  | .delete root => deviceNodeDelete fuel root

def deviceNodeCalls (fuel : Nat) (m : Links DeviceNodeCell) : List DeviceNodeCall → Option (Links DeviceNodeCell)
  | [] => some m
  | call :: calls => (call.run fuel m).bind fun m => deviceNodeCalls fuel m calls

end Functions

section Delete

abbrev DeviceNodes := Rose Nat

abbrev DeviceNodes.lists (t : DeviceNodes) : List (List DeviceNodeCell) := Rose.lists .head .child t

abbrev DeviceNodes.listsAll (ts : List DeviceNodes) : List (List DeviceNodeCell) := Rose.listsAll .head .child ts

/-- The lists of trees whose roots are in no list. -/
def forestLists (ts : List DeviceNodes) : List (List DeviceNodeCell) :=
  ts.flatMap fun t => [.head t.id] :: DeviceNodes.lists t

variable {m : Links DeviceNodeCell} {idle : List DeviceNodeCell} {left right : List DeviceNodeCell}
  {s : List (List DeviceNodeCell)}

/-- A deleted node goes with everything below it, out of the list that it is in. -/
theorem deviceNodeDelete_owns {fuel : Nat} {t : DeviceNodes} (enough : t.size < fuel)
    (owns : Owns m idle ((left ++ .head t.id :: right) :: (t.lists ++ s))) :
    ∃ m', deviceNodeDelete fuel t.id m = some m' ∧ Owns m' idle ((left ++ right) :: s) := by
  induction fuel generalizing t m left right s with
  | zero => exact absurd enough (Nat.not_lt_zero _)
  | succ fuel ih =>
    cases t with
    | node root cs =>
      let outer := (left ++ .head root :: right) :: s
      let Inv (rest : List DeviceNodeCell) (m : Links DeviceNodeCell) : Prop :=
        ∃ ds : List DeviceNodes, rest = (ds.map fun d => .head d.id) ∧ (∀ d ∈ ds, d.size < fuel) ∧
          Owns m idle ((.child root :: ds.map fun d => .head d.id) :: (DeviceNodes.listsAll ds ++ outer))
      have ring {ds : List DeviceNodes} {m : Links DeviceNodeCell} {s' : List (List DeviceNodeCell)}
          (owns : Owns m idle ((.child root :: ds.map fun d => .head d.id) :: s')) :
          Ring m (.child root :: ds.map fun d => .head d.id) := owns.rep.rings _ List.mem_cons_self
      have children : Owns m idle ((.child root :: cs.map fun d => .head d.id) :: (DeviceNodes.listsAll cs ++ outer)) :=
        owns.perm List.perm_middle.symm
      rw [Rose.size] at enough
      have few : ∀ d ∈ cs, d.size < fuel := fun d member => by
        have part := Rose.size_le_sizeAll member
        omega
      have deleted := @listForEachSafe_rule _ _ m (.child root) (cs.map fun d => .head d.id) (fun pos m =>
        match pos with
        | .head node => deviceNodeDelete fuel node m
        | .child _ => none) Inv
        (by
          rintro _ m ⟨ds, rfl, _, owns⟩
          exact ⟨[], ring owns⟩)
        (by
          rintro a rest m ⟨ds, shape, few, owns⟩
          cases ds with
          | nil => cases shape
          | cons d ds =>
            rw [List.map_cons, List.cons.injEq] at shape
            obtain ⟨rfl, rfl⟩ := shape
            rw [DeviceNodes.listsAll, Rose.listsAll, List.append_assoc] at owns
            obtain ⟨m', run, owns'⟩ := @ih m [.child root] _ _ d (few d List.mem_cons_self) owns
            exact ⟨m', run, ds, rfl, fun other member => few other (List.mem_cons_of_mem _ member), owns'⟩)
        fuel (by
          have many := Rose.length_le_sizeAll cs
          rw [List.length_map]
          omega) (ring children) ⟨cs, rfl, few, children⟩
      obtain ⟨_, run, ds, shape, _, owns'⟩ := deleted
      rw [List.map_eq_nil_iff.mp shape.symm] at owns'
      obtain ⟨_, run', owns''⟩ := (owns'.perm (List.Perm.swap _ _ _)).listDel
      have retired := (owns''.perm (List.Perm.swap _ _ _)).retire
      have order : (DeviceNodeCell.head root :: idle ++ [DeviceNodeCell.child root]).Perm
          ([DeviceNodeCell.head root, .child root] ++ idle) :=
        (List.perm_append_singleton _ idle).cons _
      obtain ⟨m', run'', freed⟩ := (retired.reorder order).release
      refine ⟨m', ?_, freed⟩
      rw [Rose.id, deviceNodeDelete, run]
      simp [run', run'']

end Delete

section Runs

/-- What the calls do to the trees. A fresh node comes from `calloc`; the others name a node of a tree. -/
inductive DeviceNodeStep : List DeviceNodes → DeviceNodeCall → List DeviceNodes → Prop where
  | newRoot {ts : List DeviceNodes} {id : Nat}
      (fresh : ∀ a ∈ [DeviceNodeCell.head id, .child id], a ∉ (forestLists ts).flatten) :
      DeviceNodeStep ts (.new id none) (.node id [] :: ts)
  | new {ts rest : List DeviceNodes} {t t' : DeviceNodes} {id parent : Nat}
      (fresh : ∀ a ∈ [DeviceNodeCell.head id, .child id], a ∉ (forestLists ts).flatten) (trees : ts.Perm (t :: rest))
      (edit : Rose.Edit (fun u u' => u.id = parent ∧ u' = .node parent (u.children ++ [.node id []])) t t') :
      DeviceNodeStep ts (.new id (some parent)) (t' :: rest)
  | addFront {ts rest : List DeviceNodes} {t t' root : DeviceNodes} {parent : Nat} (trees : ts.Perm (root :: t :: rest))
      (edit : Rose.Edit (fun u u' => u.id = parent ∧ u' = .node parent (root :: u.children)) t t') :
      DeviceNodeStep ts (.addFront root.id parent) (t' :: rest)
  | delete {ts rest : List DeviceNodes} {t t' root : DeviceNodes} (trees : ts.Perm (t :: rest))
      (edit : Rose.Edit (fun u u' => ∃ before after, u.children = before ++ root :: after ∧
        u' = .node u.id (before ++ after)) t t') :
      DeviceNodeStep ts (.delete root.id) (t' :: rest)
  | deleteRoot {ts rest : List DeviceNodes} {root : DeviceNodes} (trees : ts.Perm (root :: rest)) :
      DeviceNodeStep ts (.delete root.id) rest

inductive DeviceNodeSteps : List DeviceNodes → List DeviceNodeCall → List DeviceNodes → Prop where
  | nil {ts : List DeviceNodes} : DeviceNodeSteps ts [] ts
  | cons {ts ts' ts'' : List DeviceNodes} {call : DeviceNodeCall} {calls : List DeviceNodeCall}
      (step : DeviceNodeStep ts call ts') (steps : DeviceNodeSteps ts' calls ts'') :
      DeviceNodeSteps ts (call :: calls) ts''

variable {m : Links DeviceNodeCell} {ts ts' rest : List DeviceNodes} {t t' : DeviceNodes} {id : Nat}

theorem forestLists_cons (t : DeviceNodes) (rest : List DeviceNodes) :
    forestLists (t :: rest) = [.head t.id] :: (t.lists ++ forestLists rest) := rfl

theorem newDeviceNode_owns (owns : Owns m [] (forestLists ts))
    (fresh : ∀ a ∈ [DeviceNodeCell.head id, .child id], a ∉ (forestLists ts).flatten) :
    ∃ m', newDeviceNodeHeap id none m = some m' ∧ Owns m' [] ([.child id] :: [.head id] :: forestLists ts) := by
  obtain ⟨_, run, headed⟩ := (owns.acquire fresh (by simp)).listInit
  obtain ⟨m', run', owns'⟩ := headed.listInit
  refine ⟨m', ?_, owns'⟩
  simp [newDeviceNodeHeap, run, run']

theorem newDeviceNode_parent {parent : Nat} :
    newDeviceNodeHeap id (some parent) m =
      (newDeviceNodeHeap id none m).bind (listAddTail (some (.head id)) (some (.child parent))) := by
  simp only [newDeviceNodeHeap, Option.bind_eq_bind, Option.bind_assoc, Option.bind_some]

/-- The change of a node among all lists. -/
theorem Rose.Edit.forest {change : DeviceNodes → DeviceNodes → Prop} (edit : Rose.Edit change t t')
    (rest : List DeviceNodes) :
    ∃ u u' others, change u u' ∧ u'.id = u.id ∧ (forestLists (t :: rest)).Perm (DeviceNodes.lists u ++ others) ∧
      (forestLists (t' :: rest)).Perm (DeviceNodes.lists u' ++ others) ∧ t.size + u'.size = t'.size + u.size := by
  obtain ⟨u, u', others, changed, same, lists, lists', sizes⟩ := edit.lists DeviceNodeCell.head .child
  refine ⟨u, u', [.head t.id] :: (others ++ forestLists rest), changed, same, ?_, ?_, sizes⟩
  · refine List.Perm.trans (List.Perm.cons _ (lists.append_right _)) ?_
    rw [List.append_assoc]
    exact List.perm_middle.symm
  · rw [forestLists_cons, edit.id]
    refine List.Perm.trans (List.Perm.cons _ (lists'.append_right _)) ?_
    rw [List.append_assoc]
    exact List.perm_middle.symm

theorem forestLists_perm (same : ts.Perm ts') : (forestLists ts).Perm (forestLists ts') := same.flatMap_right _

/-- One call keeps every node in its list, and gives back what it frees. -/
theorem DeviceNodeStep.owns {fuel : Nat} {call : DeviceNodeCall} (owns : Owns m [] (forestLists ts))
    (step : DeviceNodeStep ts call ts') (enough : Rose.sizeAll ts < fuel) :
    ∃ m', call.run fuel m = some m' ∧ Owns m' [] (forestLists ts') := by
  cases step with
  | newRoot fresh =>
    obtain ⟨m', run, owns'⟩ := newDeviceNode_owns owns fresh
    exact ⟨m', run, owns'.perm (List.Perm.swap _ _ _)⟩
  | @new rest t t' id parent fresh trees edit =>
    obtain ⟨_, run, owns'⟩ := newDeviceNode_owns owns fresh
    obtain ⟨u, _, others, ⟨rfl, rfl⟩, _, lists, lists', _⟩ := edit.forest rest
    cases u with
    | node parent cs =>
    have front : ([.child id] :: [.head id] :: forestLists ts).Perm
        ([.head id] :: (.child parent :: cs.map fun c => .head c.id) ::
          ([.child id] :: (DeviceNodes.listsAll cs ++ others))) := by
      refine (List.Perm.swap _ _ _).trans (List.Perm.cons _ ?_)
      exact (((forestLists_perm trees).trans lists).cons _).trans (List.Perm.swap _ _ _)
    obtain ⟨m', run', added⟩ := (owns'.perm front).listAddTail
    refine ⟨m', ?_, added.perm (List.Perm.trans ?_ lists'.symm)⟩
    · rw [DeviceNodeCall.run, newDeviceNode_parent, run]
      exact run'
    · rw [DeviceNodes.lists, Rose.lists, Rose.children, Rose.list_node, Rose.listsAll_append, List.map_append]
      have alone : Rose.listsAll DeviceNodeCell.head DeviceNodeCell.child [.node id []] = [[.child id]] := rfl
      rw [alone, List.cons_append, List.append_assoc]
      exact (List.perm_append_comm_assoc [[DeviceNodeCell.child id]] (DeviceNodes.listsAll cs) others).cons _
  | @addFront rest t t' root parent trees edit =>
    obtain ⟨u, _, others, ⟨rfl, rfl⟩, _, lists, lists', _⟩ := edit.forest rest
    cases u with
    | node parent cs =>
    have front : (forestLists ts).Perm ([.head root.id] :: (.child parent :: cs.map fun c => .head c.id) ::
        (root.lists ++ (DeviceNodes.listsAll cs ++ others))) := by
      refine (forestLists_perm trees).trans (List.Perm.cons _ ?_)
      exact (lists.append_left root.lists).trans List.perm_middle
    obtain ⟨m', run, added⟩ := (owns.perm front).listAdd
    refine ⟨m', run, added.perm (List.Perm.trans ?_ lists'.symm)⟩
    rw [DeviceNodes.lists, DeviceNodes.lists, Rose.lists, Rose.children, Rose.list_node, Rose.listsAll]
    apply List.Perm.cons
    exact List.Perm.of_eq (List.append_assoc _ _ _).symm
  | @delete rest t t' root trees edit =>
    obtain ⟨u, _, others, ⟨before, after, children, rfl⟩, _, lists, lists', sizes⟩ := edit.forest rest
    cases u with
    | node parent cs =>
    obtain rfl : cs = before ++ root :: after := children
    have front : (forestLists ts).Perm
        (((.child parent :: before.map fun c => .head c.id) ++ .head root.id :: after.map fun c => .head c.id) ::
          (root.lists ++ (DeviceNodes.listsAll (before ++ after) ++ others))) := by
      refine ((forestLists_perm trees).trans lists).trans ?_
      rw [DeviceNodes.lists, Rose.lists, Rose.list_node, Rose.listsAll_append, Rose.listsAll, List.map_append]
      rw [DeviceNodes.listsAll, Rose.listsAll_append, List.cons_append]
      apply List.Perm.cons
      simp only [List.append_assoc]
      exact List.perm_append_comm_assoc _ _ _
    have small : root.size < fuel := by
      rw [Rose.sizeAll_perm trees, Rose.sizeAll] at enough
      simp only [Rose.size, Rose.sizeAll_append, Rose.sizeAll] at sizes
      omega
    obtain ⟨m', run, deleted⟩ := @deviceNodeDelete_owns m [] _ _ _ fuel root small (owns.perm front)
    refine ⟨m', run, deleted.perm (List.Perm.trans ?_ lists'.symm)⟩
    rw [DeviceNodes.lists, Rose.lists, Rose.list_node, List.map_append]
    rfl
  | @deleteRoot rest root trees =>
    have front := owns.perm (forestLists_perm trees)
    rw [Rose.sizeAll_perm trees, Rose.sizeAll] at enough
    obtain ⟨m', run, deleted⟩ := @deviceNodeDelete_owns m [] [] [] _ fuel root (by omega) front
    exact ⟨m', run, deleted.retire⟩

theorem DeviceNodeStep.size {call : DeviceNodeCall} (step : DeviceNodeStep ts call ts') :
    Rose.sizeAll ts' ≤ Rose.sizeAll ts + 1 := by
  cases step with
  | newRoot _ =>
    simp only [Rose.sizeAll, Rose.size]
    omega
  | new _ trees edit =>
    obtain ⟨u, _, _, ⟨_, rfl⟩, _, _, _, sizes⟩ := edit.lists DeviceNodeCell.head .child
    cases u with
    | node parent cs =>
    rw [Rose.sizeAll_perm trees]
    simp only [Rose.size, Rose.sizeAll_append, Rose.sizeAll, Rose.children] at sizes ⊢
    omega
  | addFront trees edit =>
    obtain ⟨u, _, _, ⟨_, rfl⟩, _, _, _, sizes⟩ := edit.lists DeviceNodeCell.head .child
    cases u with
    | node parent cs =>
    rw [Rose.sizeAll_perm trees]
    simp only [Rose.size, Rose.sizeAll, Rose.children] at sizes ⊢
    omega
  | delete trees edit =>
    obtain ⟨u, _, _, ⟨before, after, children, rfl⟩, _, _, _, sizes⟩ := edit.lists DeviceNodeCell.head .child
    cases u with
    | node parent cs =>
    obtain rfl : cs = before ++ _ :: after := children
    rw [Rose.sizeAll_perm trees]
    simp only [Rose.size, Rose.sizeAll_append, Rose.sizeAll] at sizes ⊢
    omega
  | deleteRoot trees =>
    rw [Rose.sizeAll_perm trees]
    simp only [Rose.sizeAll]
    omega

theorem DeviceNodeSteps.owns {fuel : Nat} {calls : List DeviceNodeCall} (owns : Owns m [] (forestLists ts))
    (steps : DeviceNodeSteps ts calls ts') (enough : Rose.sizeAll ts + calls.length < fuel) :
    ∃ m', deviceNodeCalls fuel m calls = some m' ∧ Owns m' [] (forestLists ts') := by
  induction steps generalizing m with
  | nil => exact ⟨m, rfl, owns⟩
  | cons step _ ih =>
    rw [List.length_cons] at enough
    obtain ⟨next, run, owns'⟩ := step.owns owns (show _ < fuel by omega)
    obtain ⟨m', runs, owns''⟩ := ih owns' (by have grown := step.size; omega)
    refine ⟨m', ?_, owns''⟩
    rw [deviceNodeCalls, run, Option.bind_some, runs]

end Runs

/-- Whatever nodes are made, moved and deleted, no call faults, and the nodes in use are those of the trees. -/
theorem deviceNodeCalls_trees {m : Links DeviceNodeCell} (empty : Owns m [] []) {calls : List DeviceNodeCall}
    {ts : List DeviceNodes} (steps : DeviceNodeSteps [] calls ts) {fuel : Nat} (enough : calls.length < fuel) :
    ∃ m', deviceNodeCalls fuel m calls = some m' ∧ (∀ a, m'.Live a ↔ a ∈ (forestLists ts).flatten) ∧
      (forestLists ts).flatten.Nodup ∧ ∀ l ∈ forestLists ts, Ring m' l := by
  obtain ⟨m', run, owns⟩ := @DeviceNodeSteps.owns m [] ts fuel calls empty steps (by rw [Rose.sizeAll]; omega)
  exact ⟨m', run, owns.rep.live, owns.distinct, owns.rep.rings⟩

/-- A root, a child and its child; the child goes with its own. -/
theorem deviceNodeCalls_trees_three :
    ∃ m', deviceNodeCalls 5 (fun _ => none) [.new 0 none, .new 1 (some 0), .new 2 (some 1), .delete 1] = some m' ∧
      (∀ a, m'.Live a ↔ a ∈ (forestLists [.node 0 []]).flatten) ∧ (forestLists [.node 0 []]).flatten.Nodup ∧
      ∀ l ∈ forestLists [.node 0 []], Ring m' l := by
  have first : DeviceNodeStep [] (.new 0 none) [.node 0 []] := .newRoot (by decide)
  have second : DeviceNodeStep [.node 0 []] (.new 1 (some 0)) [.node 0 [.node 1 []]] :=
    .new (by decide) (.refl _) (.here ⟨rfl, rfl⟩ rfl)
  have third : DeviceNodeStep [.node 0 [.node 1 []]] (.new 2 (some 1)) [.node 0 [.node 1 [.node 2 []]]] :=
    .new (by decide) (.refl _) (@Rose.Edit.deep _ _ 0 _ _ [] [] (.here ⟨rfl, rfl⟩ rfl))
  have fourth : DeviceNodeStep [.node 0 [.node 1 [.node 2 []]]] (.delete 1) [.node 0 []] :=
    @DeviceNodeStep.delete _ [] _ _ (.node 1 [.node 2 []]) (.refl _) (.here ⟨[], [], rfl, rfl⟩ rfl)
  exact deviceNodeCalls_trees Owns.empty (.cons first (.cons second (.cons third (.cons fourth .nil)))) (by decide)

end ImgEditor
