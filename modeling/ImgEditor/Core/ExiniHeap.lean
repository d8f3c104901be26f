import ImgEditor.Core.ListRuns

namespace ImgEditor

open Storage

/-- The list heads of a `struct exini` and of the nodes that it allocates. -/
inductive ExiniCell where
  | sections
  | sectionHead (id : Nat)
  | properties (id : Nat)
  | propertyHead (id : Nat)
deriving DecidableEq

/-- What the loader does to the memory, with the node that `calloc` hands out. -/
inductive ExiniEvent where
  | addSection (id : Nat)
  | addProperty (section_ id : Nat)

section Functions

def exiniAllocSection (id : Nat) (m : Links ExiniCell) : Option (Links ExiniCell) := do
  let m := m.acquire [.sectionHead id, .properties id]
  let m ← listInit (some (.sectionHead id)) m
  listInit (some (.properties id)) m

def exiniAddPropertyNode (section_ id : Nat) (m : Links ExiniCell) : Option (Links ExiniCell) := do
  let m := m.acquire [.propertyHead id]
  let m ← listInit (some (.propertyHead id)) m
  listAddTail (some (.propertyHead id)) (some (.properties section_)) m

/-- `exini_alloc_section` and `exini_add_property`, as the loader calls them. -/
def ExiniEvent.run : ExiniEvent → Links ExiniCell → Option (Links ExiniCell)
  | .addSection id, m => do
    let m ← exiniAllocSection id m
    listAddTail (some (.sectionHead id)) (some .sections) m
  | .addProperty section_ id, m => exiniAddPropertyNode section_ id m

/-- The loader from the start of `exini_load` on. -/
def exiniEvents (events : List ExiniEvent) (m : Links ExiniCell) : Option (Links ExiniCell) := do
  let m ← listInit (some .sections) m
  events.foldlM (fun m event => event.run m) m

def exiniFreeProperty (prop : ExiniCell) (m : Links ExiniCell) : Option (Links ExiniCell) := do
  let m ← listDel (some prop) m
  m.release [prop]

/-- The body of the loop of `exini_free`, where `container_of` takes the head of a section to its other list. -/
def exiniFreeSection (fuel : Nat) (section_ : ExiniCell) (m : Links ExiniCell) : Option (Links ExiniCell) :=
  match section_ with
  | .sectionHead id => do
    let m ← listForEachSafe exiniFreeProperty (some (.properties id)) fuel m
    let m ← listDel (some (.sectionHead id)) m
    m.release [.sectionHead id, .properties id]
  | _ => none

def exiniFree (fuel : Nat) (m : Links ExiniCell) : Option (Links ExiniCell) :=
  listForEachSafe (exiniFreeSection fuel) (some .sections) fuel m

end Functions

section Ownership

/-- The sections and their properties. -/
abbrev ExiniNodes := List (Nat × List Nat)

/-- An event on the nodes. The allocator hands out no node twice, and a property needs its section. -/
def ExiniEvent.apply : ExiniEvent → ExiniNodes → Option ExiniNodes
  | .addSection id, nodes => if id ∈ nodes.map Prod.fst then none else some (nodes ++ [(id, [])])
  | .addProperty section_ id, nodes =>
    if section_ ∉ nodes.map Prod.fst ∨ id ∈ nodes.flatMap Prod.snd then none
    else some (nodes.map fun node => if node.1 = section_ then (node.1, node.2 ++ [id]) else node)

def ExiniNodes.propertyList (node : Nat × List Nat) : List ExiniCell := .properties node.1 :: node.2.map .propertyHead

def ExiniNodes.sectionList (nodes : ExiniNodes) : List ExiniCell :=
  .sections :: nodes.map fun node => .sectionHead node.1

def ExiniNodes.lists (nodes : ExiniNodes) : List (List ExiniCell) := nodes.sectionList :: nodes.map propertyList

variable {m : Links ExiniCell} {nodes nodes' before after : ExiniNodes}

theorem ExiniNodes.lists_perm (node : Nat × List Nat) :
    (ExiniNodes.lists (before ++ node :: after)).Perm
      (propertyList node :: ExiniNodes.sectionList (before ++ node :: after) :: (before ++ after).map propertyList) := by
  apply List.Perm.trans (List.Perm.cons _ _) (List.Perm.swap _ _ _)
  rw [List.map_append, List.map_cons, List.map_append]
  exact List.perm_middle

theorem sectionHead_mem {id : Nat} : .sectionHead id ∈ nodes.lists.flatten ↔ id ∈ nodes.map Prod.fst := by
  simp [ExiniNodes.lists, ExiniNodes.sectionList, ExiniNodes.propertyList]

theorem properties_mem {id : Nat} : .properties id ∈ nodes.lists.flatten ↔ id ∈ nodes.map Prod.fst := by
  simp [ExiniNodes.lists, ExiniNodes.sectionList, ExiniNodes.propertyList]

theorem propertyHead_mem {id : Nat} : .propertyHead id ∈ nodes.lists.flatten ↔ id ∈ nodes.flatMap Prod.snd := by
  simp [ExiniNodes.lists, ExiniNodes.sectionList, ExiniNodes.propertyList]

theorem addSection_owns {id : Nat} (owns : Owns m [] nodes.lists) (fresh : id ∉ nodes.map Prod.fst) :
    ∃ m', (ExiniEvent.addSection id).run m = some m' ∧ Owns m' [] (ExiniNodes.lists (nodes ++ [(id, [])])) := by
  have unused : ∀ a ∈ [.sectionHead id, .properties id], a ∉ [] ++ nodes.lists.flatten := by
    intro a member
    rw [List.nil_append]
    simp only [List.mem_cons, List.not_mem_nil, or_false] at member
    rcases member with rfl | rfl
    · rwa [sectionHead_mem]
    · rwa [properties_mem]
  have acquired := owns.acquire unused (by simp)
  obtain ⟨_, run, initialised⟩ := acquired.listInit
  obtain ⟨_, run', initialised'⟩ := initialised.listInit
  obtain ⟨m', run'', added⟩ := (initialised'.perm (List.Perm.swap _ _ _)).perm
    (List.Perm.cons _ (List.Perm.swap _ _ _)) |>.listAddTail
  refine ⟨m', ?_, added.perm ?_⟩
  · simp [ExiniEvent.run, exiniAllocSection, run, run', run'']
  · rw [ExiniNodes.lists, ExiniNodes.sectionList, List.map_append, List.map_append]
    exact (List.perm_append_singleton _ _).symm.cons _

theorem addProperty_owns {section_ id : Nat} {props : List Nat}
    (owns : Owns m [] (ExiniNodes.lists (before ++ (section_, props) :: after)))
    (fresh : id ∉ (before ++ (section_, props) :: after).flatMap Prod.snd) :
    ∃ m', (ExiniEvent.addProperty section_ id).run m = some m' ∧
      Owns m' [] (ExiniNodes.lists (before ++ (section_, props ++ [id]) :: after)) := by
  have unused : ∀ a ∈ [ExiniCell.propertyHead id],
      a ∉ [] ++ (ExiniNodes.lists (before ++ (section_, props) :: after)).flatten := by
    intro a member
    rw [List.nil_append, List.mem_singleton.mp member, propertyHead_mem]
    exact fresh
  obtain ⟨_, run, initialised⟩ := (owns.acquire unused (by simp)).listInit
  obtain ⟨m', run', added⟩ := (initialised.perm ((ExiniNodes.lists_perm _).cons _)).listAddTail
  refine ⟨m', ?_, added.perm ?_⟩
  · simp [ExiniEvent.run, exiniAddPropertyNode, run, run']
  · have same : ExiniNodes.sectionList (before ++ (section_, props) :: after) =
        ExiniNodes.sectionList (before ++ (section_, props ++ [id]) :: after) := by
      simp [ExiniNodes.sectionList]
    have list : ExiniCell.properties section_ :: (props.map .propertyHead ++ [.propertyHead id]) =
        ExiniNodes.propertyList (section_, props ++ [id]) := by
      simp [ExiniNodes.propertyList]
    rw [list, same]
    exact (ExiniNodes.lists_perm _).symm

theorem sections_distinct (owns : Owns m [] nodes.lists) : (nodes.map Prod.fst).Nodup := by
  have distinct := owns.distinct
  rw [List.nil_append, ExiniNodes.lists, List.flatten_cons] at distinct
  have heads := (List.nodup_cons.mp (List.nodup_append.mp distinct).1).2
  have shape : (nodes.map fun node => ExiniCell.sectionHead node.1) = (nodes.map Prod.fst).map .sectionHead := by
    rw [List.map_map]
    rfl
  rw [shape] at heads
  exact heads.of_map

theorem untouched {section_ id : Nat} (others : ∀ node ∈ nodes, node.1 ≠ section_) :
    nodes.map (fun node => if node.1 = section_ then (node.1, node.2 ++ [id]) else node) = nodes := by
  conv_rhs => rw [← List.map_id nodes]
  apply List.map_congr_left
  intro node member
  exact if_neg (others node member)

/-- An event of the loader keeps every node in its list. -/
theorem ExiniEvent.owns {event : ExiniEvent} (owns : Owns m [] nodes.lists) (known : event.apply nodes = some nodes') :
    ∃ m', event.run m = some m' ∧ Owns m' [] nodes'.lists := by
  cases event with
  | addSection id =>
    simp only [ExiniEvent.apply, Option.ite_none_left_eq_some, Option.some.injEq] at known
    obtain ⟨fresh, rfl⟩ := known
    exact addSection_owns owns fresh
  | addProperty section_ id =>
    simp only [ExiniEvent.apply, Option.ite_none_left_eq_some, Option.some.injEq, not_or, not_not] at known
    obtain ⟨⟨found, fresh⟩, rfl⟩ := known
    have distinct := sections_distinct owns
    obtain ⟨node, member, rfl⟩ := List.mem_map.mp found
    obtain ⟨before, after, rfl⟩ := List.append_of_mem member
    obtain ⟨m', run, owns'⟩ := @addProperty_owns _ before after node.1 id node.2 owns fresh
    refine ⟨m', run, ?_⟩
    rw [List.map_append, List.map_cons] at distinct
    have apart := (List.nodup_cons.mp (List.nodup_middle.mp distinct)).1
    have others : ∀ other ∈ before ++ after, other.1 ≠ node.1 := by
      intro other inside same
      apply apart
      rw [← List.map_append, ← same]
      exact List.mem_map_of_mem inside
    rw [List.map_append, List.map_cons, if_pos rfl, untouched fun other inside => others other (by simp [inside]),
      untouched fun other inside => others other (by simp [inside])]
    exact owns'

theorem exiniFreeProperty_owns {id prop : Nat} {props : List Nat}
    (owns : Owns m [] (ExiniNodes.lists ((id, prop :: props) :: after))) :
    ∃ m', exiniFreeProperty (.propertyHead prop) m = some m' ∧ Owns m' [] (ExiniNodes.lists ((id, props) :: after)) := by
  have front := owns.perm (@ExiniNodes.lists_perm [] after (id, prop :: props))
  obtain ⟨_, run, deleted⟩ := @Owns.listDel _ _ _ _ _ _ [ExiniCell.properties id] _ front
  obtain ⟨m', run', owns'⟩ := @Owns.release _ _ _ [ExiniCell.propertyHead prop] [] _ deleted
  refine ⟨m', ?_, owns'.perm ?_⟩
  · simp [exiniFreeProperty, run, run']
  · exact (@ExiniNodes.lists_perm [] after (id, props)).symm

theorem exiniFreeProperties_owns {id fuel : Nat} {props : List Nat} (enough : props.length < fuel)
    (owns : Owns m [] (ExiniNodes.lists ((id, props) :: after))) :
    ∃ m', listForEachSafe exiniFreeProperty (some (.properties id)) fuel m = some m' ∧
      Owns m' [] (ExiniNodes.lists ((id, []) :: after)) := by
  let Inv (rest : List ExiniCell) (m : Links ExiniCell) : Prop :=
    ∃ left, rest = left.map .propertyHead ∧ Owns m [] (ExiniNodes.lists ((id, left) :: after))
  have ring {left : List Nat} {m : Links ExiniCell} (owns : Owns m [] (ExiniNodes.lists ((id, left) :: after))) :
      Ring m (.properties id :: left.map .propertyHead) :=
    owns.rep.rings (ExiniNodes.propertyList (id, left)) (by simp [ExiniNodes.lists])
  have freed := @listForEachSafe_rule _ _ m (.properties id) (props.map .propertyHead) exiniFreeProperty Inv
    (by
      rintro _ m ⟨left, rfl, owns⟩
      exact ⟨[], ring owns⟩)
    (by
      rintro a rest m ⟨left, shape, owns⟩
      cases left with
      | nil => cases shape
      | cons prop left =>
        rw [List.map_cons, List.cons.injEq] at shape
        obtain ⟨rfl, rfl⟩ := shape
        obtain ⟨m', run, owns'⟩ := exiniFreeProperty_owns owns
        exact ⟨m', run, left, rfl, owns'⟩)
    fuel (by rwa [List.length_map]) (ring owns) ⟨props, rfl, owns⟩
  obtain ⟨m', run, left, shape, owns'⟩ := freed
  rw [List.map_eq_nil_iff.mp shape.symm] at owns'
  exact ⟨m', run, owns'⟩

theorem exiniFreeSection_owns {id fuel : Nat} {props : List Nat} (enough : props.length < fuel)
    (owns : Owns m [] (ExiniNodes.lists ((id, props) :: after))) :
    ∃ m', exiniFreeSection fuel (.sectionHead id) m = some m' ∧ Owns m' [] after.lists := by
  obtain ⟨_, run, owns⟩ := exiniFreeProperties_owns enough owns
  obtain ⟨_, run', deleted⟩ := @Owns.listDel _ _ _ _ _ _ [ExiniCell.sections] _ owns
  have retired := (deleted.perm (List.Perm.swap _ _ _)).retire
  obtain ⟨m', run'', owns'⟩ := @Owns.release _ _ _ [ExiniCell.sectionHead id, .properties id] [] _ retired
  refine ⟨m', ?_, owns'⟩
  beta_reduce at run'
  simp [exiniFreeSection, run, run', run'']

theorem exiniFree_owns {fuel : Nat} (enough : nodes.length < fuel) (within : ∀ node ∈ nodes, node.2.length < fuel)
    (owns : Owns m [] nodes.lists) : ∃ m', exiniFree fuel m = some m' ∧ Owns m' [] [[.sections]] := by
  let Inv (rest : List ExiniCell) (m : Links ExiniCell) : Prop :=
    ∃ left : ExiniNodes, rest = (left.map fun node => .sectionHead node.1) ∧ (∀ node ∈ left, node.2.length < fuel) ∧
      Owns m [] left.lists
  have ring {left : ExiniNodes} {m : Links ExiniCell} (owns : Owns m [] left.lists) :
      Ring m (.sections :: left.map fun node => .sectionHead node.1) := owns.rep.rings _ List.mem_cons_self
  have freed := @listForEachSafe_rule _ _ m .sections (nodes.map fun node => .sectionHead node.1)
    (exiniFreeSection fuel) Inv
    (by
      rintro _ m ⟨left, rfl, _, owns⟩
      exact ⟨[], ring owns⟩)
    (by
      rintro a rest m ⟨left, shape, within, owns⟩
      cases left with
      | nil => cases shape
      | cons node left =>
        rw [List.map_cons, List.cons.injEq] at shape
        obtain ⟨rfl, rfl⟩ := shape
        obtain ⟨m', run, owns'⟩ := exiniFreeSection_owns (within node List.mem_cons_self) owns
        exact ⟨m', run, left, rfl, fun other member => within other (List.mem_cons_of_mem _ member), owns'⟩)
    fuel (by rwa [List.length_map]) (ring owns) ⟨nodes, rfl, within, owns⟩
  obtain ⟨m', run, left, shape, _, owns'⟩ := freed
  rw [List.map_eq_nil_iff.mp shape.symm] at owns'
  exact ⟨m', run, owns'⟩

/-- No more nodes than events. -/
def ExiniNodes.Within (count : Nat) (nodes : ExiniNodes) : Prop :=
  nodes.length ≤ count ∧ ∀ node ∈ nodes, node.2.length ≤ count

theorem ExiniEvent.within {event : ExiniEvent} {count : Nat} (within : nodes.Within count)
    (known : event.apply nodes = some nodes') : nodes'.Within (count + 1) := by
  cases event with
  | addSection id =>
    simp only [ExiniEvent.apply, Option.ite_none_left_eq_some, Option.some.injEq] at known
    obtain ⟨_, rfl⟩ := known
    constructor
    · simpa using within.1
    · intro node member
      rcases List.mem_append.mp member with member | member
      · exact Nat.le_succ_of_le (within.2 node member)
      · rw [List.mem_singleton.mp member]
        exact Nat.zero_le _
  | addProperty section_ id =>
    simp only [ExiniEvent.apply, Option.ite_none_left_eq_some, Option.some.injEq] at known
    obtain ⟨_, rfl⟩ := known
    constructor
    · rw [List.length_map]
      exact Nat.le_succ_of_le within.1
    · intro node member
      obtain ⟨old, inside, rfl⟩ := List.mem_map.mp member
      have few := within.2 old inside
      split
      · simpa using few
      · exact Nat.le_succ_of_le few

theorem exiniEvents_owns {events : List ExiniEvent} {count : Nat} (owns : Owns m [] nodes.lists)
    (within : nodes.Within count) (known : events.foldlM (fun nodes event => event.apply nodes) nodes = some nodes') :
    ∃ m', events.foldlM (fun m event => event.run m) m = some m' ∧ Owns m' [] nodes'.lists ∧
      nodes'.Within (count + events.length) := by
  induction events generalizing m nodes count with
  | nil =>
    cases known
    exact ⟨m, rfl, owns, within⟩
  | cons event events ih =>
    rw [List.foldlM_cons] at known
    obtain ⟨next, step, rest⟩ := Option.bind_eq_some_iff.mp known
    obtain ⟨m', run, owns'⟩ := event.owns owns step
    obtain ⟨m'', runs, owns'', within'⟩ := ih owns' (event.within within step) rest
    refine ⟨m'', ?_, owns'', ?_⟩
    · rw [List.foldlM_cons, run]
      exact runs
    · rw [List.length_cons, Nat.add_comm events.length 1, ← Nat.add_assoc]
      exact within'

end Ownership

/-- Whatever the loader has built up, `exini_free` gives back every node once and leaves an empty list. -/
theorem exiniFree_releases {m : Links ExiniCell} (fresh : Owns m [.sections] []) {events : List ExiniEvent}
    {nodes : ExiniNodes} (known : events.foldlM (fun nodes event => event.apply nodes) [] = some nodes) {fuel : Nat}
    (enough : events.length < fuel) :
    ∃ loaded freed, exiniEvents events m = some loaded ∧ (∀ a, loaded.Live a ↔ a ∈ nodes.lists.flatten) ∧
      exiniFree fuel loaded = some freed ∧ (∀ a, freed.Live a ↔ a = .sections) ∧
      listEmpty (some .sections) freed = some true := by
  obtain ⟨_, run, owns⟩ := fresh.listInit
  have start : ExiniNodes.Within 0 [] := ⟨le_refl 0, fun node member => absurd member List.not_mem_nil⟩
  obtain ⟨loaded, runs, owns', few, short⟩ := @exiniEvents_owns _ [] nodes events 0 owns start known
  rw [Nat.zero_add] at few short
  obtain ⟨freed, done, owns''⟩ := exiniFree_owns (Nat.lt_of_le_of_lt few enough)
    (fun node member => Nat.lt_of_le_of_lt (short node member) enough) owns'
  refine ⟨loaded, freed, ?_, owns'.rep.live, done, ?_, listEmpty_ring (owns''.rep.rings _ List.mem_cons_self)⟩
  · rw [exiniEvents, run]
    exact runs
  · intro a
    rw [owns''.rep.live]
    simp

theorem exiniFree_releases_section :
    ∃ loaded freed, exiniEvents [.addSection 1, .addProperty 1 7, .addSection 2]
        (fun a => if a = .sections then some ⟨none, none⟩ else none) = some loaded ∧
      (∀ a, loaded.Live a ↔ a ∈ (ExiniNodes.lists [(1, [7]), (2, [])]).flatten) ∧
      exiniFree 4 loaded = some freed ∧ (∀ a, freed.Live a ↔ a = .sections) ∧
      listEmpty (some .sections) freed = some true := by
  apply exiniFree_releases _ rfl (by decide)
  constructor
  · constructor
    · intro a
      rw [Links.Live]
      split <;> simp_all
    · simp
    · simp
  · simp

end ImgEditor
