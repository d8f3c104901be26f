import ImgEditor.Core.ListRuns

namespace ImgEditor

open Storage

/-- The list branchHeads of a `struct ubi_bptree_branch`, and its array of leafs. -/
inductive UbiBranchCell where
  | head (id : Nat)
  | childBranches (id : Nat)
  | childLeafs (id : Nat)
deriving DecidableEq

/-- The branches of the index, each at its address. -/
abbrev UbiBranches := Rose Nat

section Functions

/-- `alloc_ubi_bptree_branch`, with the address that the allocator hands out. -/
def allocUbiBptreeBranch (id : Nat) (m : Links UbiBranchCell) : Option (Links UbiBranchCell) := do
  let m := m.acquire [.head id, .childBranches id]
  let m ← listInit (some (.head id)) m
  let m ← listInit (some (.childBranches id)) m
  some (m.acquire [.childLeafs id])

mutual

/-- What `ubi_bptree_load` does to the lists, on an index with these branches. -/
def ubiBptreeLoadLists : UbiBranches → Links UbiBranchCell → Option (Links UbiBranchCell)
  | .node self children, m => ubiBptreeLoadChilds self children m

def ubiBptreeLoadChilds (self : Nat) : List UbiBranches → Links UbiBranchCell → Option (Links UbiBranchCell)
  | [], m => some m
  | child :: rest, m => do
    let m ← allocUbiBptreeBranch child.id m
    let m ← ubiBptreeLoadLists child m
    let m ← listAddTail (some (.head child.id)) (some (.childBranches self)) m
    ubiBptreeLoadChilds self rest m

end

def ubiBptreeInitLists (root : UbiBranches) (m : Links UbiBranchCell) : Option (Links UbiBranchCell) := do
  let m ← allocUbiBptreeBranch root.id m
  ubiBptreeLoadLists root m

def ubiBptreeFreeBranch : Nat → Nat → Links UbiBranchCell → Option (Links UbiBranchCell)
  | 0, _, _ => none
  | fuel + 1, branch, m => do
    if (← listEmpty (some (.childBranches branch)) m) then
      let m ← m.release [.childLeafs branch]
      let m ← listDel (some (.head branch)) m
      m.release [.head branch, .childBranches branch]
    else
      listForEachSafe (fun pos m =>
        match pos with
        | .head b => ubiBptreeFreeBranch fuel b m
        | _ => none) (some (.childBranches branch)) fuel m

end Functions

section Ownership

mutual

/-- The branches that have branches. -/
def innerBranches : UbiBranches → List UbiBranches
  | .node id children => if children.isEmpty then [] else [.node id (innerBranchesAll children)]

def innerBranchesAll : List UbiBranches → List UbiBranches
  | [] => []
  | c :: cs => innerBranches c ++ innerBranchesAll cs

end

/-- The arrays of leafs, which are in no list. -/
def leafArrays (ids : List Nat) : List UbiBranchCell := ids.map .childLeafs

abbrev UbiBranches.lists (t : UbiBranches) : List (List UbiBranchCell) := Rose.lists .head .childBranches t

abbrev UbiBranches.listsAll (ts : List UbiBranches) : List (List UbiBranchCell) := Rose.listsAll .head .childBranches ts

def branchHeads (ts : List UbiBranches) : List UbiBranchCell := ts.map fun t => .head t.id

variable {m : Links UbiBranchCell} {idle left right : List UbiBranchCell} {s : List (List UbiBranchCell)}

theorem leafArrays_append (ids ids' : List Nat) : leafArrays (ids ++ ids') = leafArrays ids ++ leafArrays ids' :=
  List.map_append

theorem branchHeads_append (ts ts' : List UbiBranches) : branchHeads (ts ++ ts') = branchHeads ts ++ branchHeads ts' := List.map_append

theorem UbiBranches.listsAll_append (ts ts' : List UbiBranches) :
    listsAll (ts ++ ts') = listsAll ts ++ listsAll ts' := Rose.listsAll_append

theorem freeBranch_leaf {fuel branch : Nat}
    (owns : Owns m (.childLeafs branch :: idle) ((left ++ .head branch :: right) :: [.childBranches branch] :: s)) :
    ∃ m', ubiBptreeFreeBranch (fuel + 1) branch m = some m' ∧ Owns m' idle ((left ++ right) :: s) := by
  have empty := listEmpty_ring (owns.rep.rings [.childBranches branch] (by simp))
  obtain ⟨_, run, released⟩ := @Owns.release _ _ _ [UbiBranchCell.childLeafs branch] _ _ owns
  obtain ⟨_, run', deleted⟩ := released.listDel
  have order : (UbiBranchCell.head branch :: idle ++ [UbiBranchCell.childBranches branch]).Perm
      ([UbiBranchCell.head branch, .childBranches branch] ++ idle) := (List.perm_append_singleton _ idle).cons _
  obtain ⟨m', run'', freed⟩ := ((deleted.perm (List.Perm.swap _ _ _)).retire.reorder order).release
  refine ⟨m', ?_, freed⟩
  simp [ubiBptreeFreeBranch, empty, run, run', run'']

/-- A branch without branches is freed; another one stays, with the list of those that stay. -/
theorem freeBranch_owns {fuel : Nat} {t : UbiBranches} (enough : t.size < fuel)
    (owns : Owns m (leafArrays t.ids ++ idle) ((left ++ .head t.id :: right) :: (t.lists ++ s))) :
    ∃ m', ubiBptreeFreeBranch fuel t.id m = some m' ∧
      Owns m' (leafArrays (Rose.idsAll (innerBranches t)) ++ idle)
        ((left ++ (branchHeads (innerBranches t) ++ right)) :: (UbiBranches.listsAll (innerBranches t) ++ s)) := by
  induction fuel generalizing t m idle left right s with
  | zero => exact absurd enough (Nat.not_lt_zero _)
  | succ fuel ih =>
    cases t with
    | node branch cs =>
    cases cs with
    | nil => exact freeBranch_leaf owns
    | cons first others =>
      generalize whole : first :: others = cs at enough owns ⊢
      have filled : cs ≠ [] := by
        rw [← whole]
        exact List.cons_ne_nil _ _
      have stays : innerBranches (.node branch cs) = [.node branch (innerBranchesAll cs)] := by
        rw [innerBranches, if_neg (by simpa using filled)]
      let outer := (left ++ .head branch :: right) :: s
      let Holds (ks ds : List UbiBranches) (m : Links UbiBranchCell) : Prop :=
        Owns m (leafArrays (Rose.idsAll ds) ++ (leafArrays (branch :: Rose.idsAll ks) ++ idle))
          ((.childBranches branch :: (branchHeads ks ++ branchHeads ds)) ::
            (UbiBranches.listsAll ds ++ (UbiBranches.listsAll ks ++ outer)))
      let Inv (rest : List UbiBranchCell) (m : Links UbiBranchCell) : Prop :=
        ∃ ks ds, rest = branchHeads ds ∧ (∀ d ∈ ds, d.size < fuel) ∧ ks ++ innerBranchesAll ds = innerBranchesAll cs ∧ Holds ks ds m
      have start : Holds [] cs m := by
        apply Owns.reorder (owns.perm List.perm_middle.symm)
        rw [Rose.ids]
        exact List.perm_middle.symm
      have ring {ks ds : List UbiBranches} {m : Links UbiBranchCell} (holds : Holds ks ds m) :
          Ring m (.childBranches branch :: (branchHeads ks ++ branchHeads ds)) := holds.rep.rings _ List.mem_cons_self
      rw [Rose.size] at enough
      have few : ∀ d ∈ cs, d.size < fuel := fun d member => by
        have part := Rose.size_le_sizeAll member
        omega
      have freed := @listForEachSafe_rule _ _ m (.childBranches branch) (branchHeads cs) (fun pos m =>
        match pos with
        | .head b => ubiBptreeFreeBranch fuel b m
        | _ => none) Inv
        (by
          rintro _ m ⟨ks, ds, rfl, _, _, holds⟩
          exact ⟨branchHeads ks, ring holds⟩)
        (by
          rintro a rest m ⟨ks, ds, shape, few, kept, holds⟩
          cases ds with
          | nil => cases shape
          | cons d ds =>
            rw [branchHeads, List.map_cons, List.cons.injEq] at shape
            obtain ⟨rfl, rfl⟩ := shape
            have here := few d List.mem_cons_self
            have now : Owns m (leafArrays d.ids ++ (leafArrays (Rose.idsAll ds) ++
                (leafArrays (branch :: Rose.idsAll ks) ++ idle)))
                (((.childBranches branch :: branchHeads ks) ++ .head d.id :: branchHeads ds) ::
                  (d.lists ++ (UbiBranches.listsAll ds ++ (UbiBranches.listsAll ks ++ outer)))) := by
              simpa only [Holds, Rose.idsAll, leafArrays_append, UbiBranches.listsAll, Rose.listsAll, branchHeads, List.map_cons,
                List.append_assoc, List.cons_append] using holds
            obtain ⟨m', run, owns'⟩ := ih here now
            refine ⟨m', run, ks ++ innerBranches d, ds, rfl, fun other member => few other (List.mem_cons_of_mem _ member), ?_,
              ?_⟩
            · rw [List.append_assoc]
              exact kept
            · have ids : (leafArrays (Rose.idsAll (innerBranches d)) ++ (leafArrays (Rose.idsAll ds) ++
                  (leafArrays (branch :: Rose.idsAll ks) ++ idle))).Perm (leafArrays (Rose.idsAll ds) ++
                  (leafArrays (branch :: Rose.idsAll (ks ++ innerBranches d)) ++ idle)) := by
                rw [Rose.idsAll_append, ← List.cons_append, leafArrays_append, List.append_assoc]
                exact (List.perm_append_comm_assoc _ _ _).trans
                  ((List.perm_append_comm_assoc _ _ _).append_left _)
              have lists : (UbiBranches.listsAll (innerBranches d) ++ (UbiBranches.listsAll ds ++
                  (UbiBranches.listsAll ks ++ outer))).Perm (UbiBranches.listsAll ds ++
                  (UbiBranches.listsAll (ks ++ innerBranches d) ++ outer)) := by
                rw [UbiBranches.listsAll_append, List.append_assoc]
                exact (List.perm_append_comm_assoc _ _ _).trans
                  ((List.perm_append_comm_assoc _ _ _).append_left _)
              have moved := (owns'.reorder ids).perm (lists.cons _)
              simpa only [Holds, branchHeads_append, List.append_assoc, List.cons_append] using moved)
        fuel (by
          have many := Rose.length_le_sizeAll cs
          rw [branchHeads, List.length_map]
          omega) (ring start) ⟨[], cs, rfl, few, rfl, start⟩
      obtain ⟨m', run, ks, ds, shape, _, kept, holds⟩ := freed
      obtain rfl : ds = [] := List.map_eq_nil_iff.mp shape.symm
      obtain rfl : ks = innerBranchesAll cs := by rwa [innerBranchesAll, List.append_nil] at kept
      refine ⟨m', ?_, ?_⟩
      · have full : listEmpty (some (.childBranches branch)) m = some false := by
          rw [listEmpty_ring (ring start)]
          simpa [branchHeads] using filled
        rw [Rose.id, ubiBptreeFreeBranch, full]
        exact run
      · have lists : ((.childBranches branch :: (branchHeads (innerBranchesAll cs) ++ branchHeads [])) ::
            (UbiBranches.listsAll [] ++ (UbiBranches.listsAll (innerBranchesAll cs) ++ outer))).Perm
            ((left ++ (branchHeads [.node branch (innerBranchesAll cs)] ++ right)) ::
              (UbiBranches.listsAll [.node branch (innerBranchesAll cs)] ++ s)) := by
          simp only [outer, branchHeads, List.map_nil, List.append_nil, UbiBranches.listsAll, Rose.listsAll, Rose.lists,
            Rose.list_node, List.nil_append, List.map_cons, List.cons_append]
          exact (List.perm_middle.cons _).trans (List.Perm.swap _ _ _)
        rw [stays, Rose.idsAll, Rose.idsAll, List.append_nil]
        exact holds.perm lists

def UbiBranchCell.id : UbiBranchCell → Nat
  | .head id | .childBranches id | .childLeafs id => id

/-- Nothing at this address is in use. -/
def Unused (id : Nat) (cells : List UbiBranchCell) : Prop := ∀ a ∈ cells, a.id ≠ id

theorem allocBranch_owns {id : Nat} (owns : Owns m idle s) (unused : Unused id (idle ++ s.flatten)) :
    ∃ m', allocUbiBptreeBranch id m = some m' ∧
      Owns m' (.childLeafs id :: idle) ([.childBranches id] :: [.head id] :: s) := by
  have fresh : ∀ a ∈ [UbiBranchCell.head id, .childBranches id], a ∉ idle ++ s.flatten := by
    intro a member held
    simp only [List.mem_cons, List.not_mem_nil, or_false] at member
    rcases member with rfl | rfl
    · exact unused _ held rfl
    · exact unused _ held rfl
  obtain ⟨_, run, headed⟩ := (owns.acquire fresh (by simp)).listInit
  obtain ⟨_, run', listed⟩ := headed.listInit
  have freshLeafs : ∀ a ∈ [UbiBranchCell.childLeafs id],
      a ∉ idle ++ ([.childBranches id] :: [.head id] :: s).flatten := by
    intro a member held
    rw [List.mem_singleton.mp member] at held
    exact unused (.childLeafs id) (by simpa using held) rfl
  refine ⟨_, ?_, listed.acquire freshLeafs (by simp)⟩
  simp [allocUbiBptreeBranch, run, run']

theorem mem_lists_id {t : UbiBranches} {a : UbiBranchCell} (member : a ∈ t.lists.flatten) : a.id ∈ t.ids := by
  obtain ⟨id, inside, rfl | rfl⟩ := (@Rose.mem_lists _ _ UbiBranchCell.head .childBranches t a).mp (.inr member)
  · exact inside
  · exact inside

theorem loadChilds_owns {n self : Nat} {cs : List UbiBranches} {xs : List UbiBranchCell} (small : Rose.sizeAll cs ≤ n)
    (owns : Owns m idle ((.childBranches self :: xs) :: s))
    (unused : ∀ id ∈ Rose.idsAll cs, Unused id (idle ++ ((.childBranches self :: xs) :: s).flatten))
    (distinct : (Rose.idsAll cs).Nodup) :
    ∃ m', ubiBptreeLoadChilds self cs m = some m' ∧ Owns m' (leafArrays (Rose.idsAll cs) ++ idle)
      ((.childBranches self :: (xs ++ branchHeads cs)) :: (UbiBranches.listsAll cs ++ s)) := by
  induction n generalizing self cs xs m idle s with
  | zero =>
    cases cs with
    | nil =>
      rw [branchHeads, List.map_nil, List.append_nil]
      exact ⟨m, rfl, owns⟩
    | cons c cs =>
      cases c with
      | node id children =>
      rw [Rose.sizeAll, Rose.size] at small
      omega
  | succ n ih =>
    cases cs with
    | nil =>
      rw [branchHeads, List.map_nil, List.append_nil]
      exact ⟨m, rfl, owns⟩
    | cons c cs =>
      cases c with
      | node id children =>
      rw [Rose.sizeAll, Rose.size] at small
      rw [Rose.idsAll, Rose.ids] at distinct unused
      have apart := List.nodup_append.mp distinct
      have apartHere := List.nodup_cons.mp apart.1
      obtain ⟨_, run, allocated⟩ := allocBranch_owns owns (unused id (by simp))
      have unusedBelow : ∀ other ∈ Rose.idsAll children, Unused other ((.childLeafs id :: idle) ++
          ([.childBranches id] :: [.head id] :: (.childBranches self :: xs) :: s).flatten) := by
        intro other member a held same
        have old : a.id = id ∨ a ∈ idle ++ ((.childBranches self :: xs) :: s).flatten := by
          simp only [List.cons_append, List.nil_append, List.mem_cons, List.mem_append, List.flatten_cons] at held ⊢
          rcases held with rfl | held | rfl | rfl | held
          · exact .inl rfl
          · exact .inr (.inl held)
          · exact .inl rfl
          · exact .inl rfl
          · exact .inr (.inr held)
        rcases old with here | old
        · exact apartHere.1 (here ▸ same ▸ member)
        · exact unused other (by simp [member]) a old same
      obtain ⟨_, run', loaded⟩ := @ih _ _ _ id children [] (by omega) allocated unusedBelow apartHere.2
      have front : ((.childBranches id :: ([] ++ branchHeads children)) ::
          (UbiBranches.listsAll children ++ [.head id] :: (.childBranches self :: xs) :: s)).Perm
          ([.head id] :: (.childBranches self :: xs) :: (UbiBranches.lists (.node id children) ++ s)) := by
        refine (List.perm_middle.cons _).trans ((List.Perm.swap _ _ _).trans (List.Perm.cons _ ?_))
        exact (List.perm_middle.cons _).trans (List.Perm.swap _ _ _)
      have arrays : (leafArrays (Rose.idsAll children) ++ .childLeafs id :: idle).Perm
          (leafArrays (Rose.ids (.node id children)) ++ idle) := List.perm_middle
      obtain ⟨_, run'', added⟩ := ((loaded.perm front).reorder arrays).listAddTail
      have unusedBehind : ∀ other ∈ Rose.idsAll cs, Unused other ((leafArrays (Rose.ids (.node id children)) ++ idle) ++
          ((.childBranches self :: (xs ++ [.head id])) :: (UbiBranches.lists (.node id children) ++ s)).flatten) := by
        intro other member a held same
        have old : a.id ∈ Rose.ids (.node id children) ∨ a ∈ idle ++ ((.childBranches self :: xs) :: s).flatten := by
          simp only [List.mem_cons, List.mem_append, List.flatten_cons, List.not_mem_nil, or_false,
            List.flatten_append] at held ⊢
          rcases held with (held | held) | (rfl | held | rfl) | held | held
          · obtain ⟨other, inside, rfl⟩ := List.mem_map.mp held
            exact .inl inside
          · exact .inr (.inl held)
          · exact .inr (.inr (.inl (.inl rfl)))
          · exact .inr (.inr (.inl (.inr held)))
          · exact .inl (by simp [Rose.ids, UbiBranchCell.id])
          · exact .inl (mem_lists_id held)
          · exact .inr (.inr (.inr held))
        rcases old with here | old
        · exact apart.2.2 _ here _ (same ▸ member) rfl
        · exact unused other (by simp [member]) a old same
      obtain ⟨m', run''', done⟩ := @ih _ _ _ self cs (xs ++ [.head id]) (by omega) added unusedBehind apart.2.1
      refine ⟨m', ?_, ?_⟩
      · simp [ubiBptreeLoadChilds, ubiBptreeLoadLists, Rose.id, run, run', run'', run''']
      · have all : (leafArrays (Rose.idsAll cs) ++ (leafArrays (Rose.ids (.node id children)) ++ idle)).Perm
            (leafArrays (Rose.idsAll (.node id children :: cs)) ++ idle) := by
          rw [Rose.idsAll, leafArrays_append, List.append_assoc]
          exact List.perm_append_comm_assoc _ _ _
        have lists : (UbiBranches.listsAll cs ++ (UbiBranches.lists (.node id children) ++ s)).Perm
            (UbiBranches.listsAll (.node id children :: cs) ++ s) := by
          rw [UbiBranches.listsAll, UbiBranches.listsAll, Rose.listsAll, List.append_assoc]
          exact List.perm_append_comm_assoc _ _ _
        have whole := (done.reorder all).perm (lists.cons _)
        rw [List.append_assoc] at whole
        exact whole

theorem mem_cells_id {ts : List UbiBranches} {a : UbiBranchCell} :
    a ∈ leafArrays (Rose.idsAll ts) ∨ a ∈ branchHeads ts ∨ a ∈ (UbiBranches.listsAll ts).flatten ↔ a.id ∈ Rose.idsAll ts := by
  rw [branchHeads, @Rose.mem_listsAll _ _ UbiBranchCell.head .childBranches ts a, leafArrays, List.mem_map]
  constructor
  · rintro (⟨id, member, rfl⟩ | ⟨id, member, rfl | rfl⟩)
    · exact member
    · exact member
    · exact member
  · intro member
    cases a with
    | head id => exact .inr ⟨id, member, .inl rfl⟩
    | childBranches id => exact .inr ⟨id, member, .inr rfl⟩
    | childLeafs id => exact .inl ⟨id, member, rfl⟩

end Ownership

example : Rose.idsAll (innerBranches (.node 0 [.node 1 [.node 2 []], .node 3 []])) = [0, 1] := by decide

end ImgEditor
