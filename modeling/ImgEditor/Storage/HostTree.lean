import Mathlib.Data.List.Nodup
import Mathlib.Logic.Function.Basic

namespace Storage

/-! Files, directories and symbolic links by their places, which are the names from the root on, and the calls that
make a tree of them. Permissions are left out. -/

inductive HostEntry (φ τ : Type) where
  | dir
  | file (data : φ)
  | link (target : τ)

inductive PathStep (α : Type) where
  | here
  | up
  | name (a : α)

abbrev Host (α φ τ : Type) := List α → Option (HostEntry φ τ)

section Host

variable {α φ τ : Type} (target : τ → Bool × List (PathStep α))

/-- Where the steps of a path lead to through directories; `follow` goes on at a link, whose target starts at the root or in
the directory of the link. -/
def walkSteps (h : Host α φ τ) (follow : List α → List (PathStep α) → Option (List α)) :
    List α → List (PathStep α) → Option (List α)
  | place, [] => some place
  | place, .here :: rest => walkSteps h follow place rest
  | place, .up :: rest => walkSteps h follow place.dropLast rest
  | place, .name a :: rest =>
    match h (place ++ [a]) with
    | some .dir => walkSteps h follow (place ++ [a]) rest
    | some (.link t) => follow (if (target t).1 then [] else place) ((target t).2 ++ rest)
    | _ => none

/-- With at most so many links on the way. -/
def walkPath (h : Host α φ τ) : Nat → List α → List (PathStep α) → Option (List α)
  | 0 => walkSteps target h fun _ _ => none
  | links + 1 => walkSteps target h (walkPath h links)

variable (links : Nat)

/-- The place of the last name of a path. -/
def lastPlace (h : Host α φ τ) (cwd : List α) (steps : List (PathStep α)) : Option (List α) :=
  match steps.getLast? with
  | some (.name a) => (walkPath target h links cwd steps.dropLast).map fun place => place ++ [a]
  | _ => none

/-- Where `open(2)` finds or makes a regular file; it follows a link at the end of the path. -/
def openPlace (h : Host α φ τ) : Nat → List α → List (PathStep α) → Option (List α)
  | more, cwd, steps =>
    match lastPlace target links h cwd steps with
    | none => none
    | some place =>
      match h place with
      | some .dir => none
      | some (.link t) =>
        match more with
        | 0 => none
        | more + 1 => openPlace h more (if (target t).1 then [] else place.dropLast) (target t).2
      | _ => some place

variable [DecidableEq α]

/-- `mkdir(2)`, and whether something is there behind it. -/
def mkdirHost (h : Host α φ τ) (cwd : List α) (steps : List (PathStep α)) : Bool × Host α φ τ :=
  match lastPlace target links h cwd steps with
  | none => ((walkPath target h links cwd steps).isSome, h)
  | some place => if (h place).isSome then (true, h) else (true, Function.update h place (some .dir))

/-- `open(2)` with `O_CREAT | O_TRUNC`, and all that is written to the file. -/
def createHost (h : Host α φ τ) (cwd : List α) (steps : List (PathStep α)) (data : φ) : Option (Host α φ τ) :=
  (openPlace target links h links cwd steps).map fun place => Function.update h place (some (.file data))

def unlinkHost (h : Host α φ τ) (cwd : List α) (steps : List (PathStep α)) : Host α φ τ :=
  match lastPlace target links h cwd steps with
  | none => h
  | some place =>
    match h place with
    | some .dir => h
    | _ => Function.update h place none

def symlinkHost (h : Host α φ τ) (cwd : List α) (steps : List (PathStep α)) (t : τ) : Option (Host α φ τ) :=
  match lastPlace target links h cwd steps with
  | none => none
  | some place => if (h place).isSome then none else some (Function.update h place (some (.link t)))

end Host

section Fresh

variable {α φ τ : Type} {target : τ → Bool × List (PathStep α)} {links : Nat} {h h' : Host α φ τ} {cwd place : List α}
  {steps : List (PathStep α)} {a : α}

def Host.Extends (h h' : Host α φ τ) : Prop := ∀ place entry, h place = some entry → h' place = some entry

theorem Host.Extends.refl (h : Host α φ τ) : h.Extends h := fun _ _ same => same

theorem Host.Extends.trans {h'' : Host α φ τ} (first : h.Extends h') (second : h'.Extends h'') : h.Extends h'' :=
  fun place entry same => second place entry (first place entry same)

theorem Host.Extends.update [DecidableEq α] (free : h place = none) (entry : Option (HostEntry φ τ)) :
    h.Extends (Function.update h place entry) := by
  intro other old same
  have apart : other ≠ place := by
    rintro rfl
    exact absurd (free.symm.trans same) (Option.some_ne_none old).symm
  rw [Function.update_of_ne apart, same]

theorem walkSteps_extends (more : h.Extends h') {follow follow' : List α → List (PathStep α) → Option (List α)}
    (follows : ∀ start rest result, follow start rest = some result → follow' start rest = some result) {result : List α}
    (walked : walkSteps target h follow cwd steps = some result) : walkSteps target h' follow' cwd steps = some result := by
  induction steps generalizing cwd with
  | nil => exact walked
  | cons step rest ih =>
    cases step with
    | here => exact ih walked
    | up => exact ih walked
    | name a =>
      rw [walkSteps] at walked ⊢
      cases there : h (cwd ++ [a]) with
      | none =>
        rw [there] at walked
        cases walked
      | some entry =>
        rw [there] at walked
        rw [more _ _ there]
        cases entry with
        | dir => exact ih walked
        | file data => cases walked
        | link t => exact follows _ _ _ walked

/-- What is made later does not turn a path. -/
theorem walkPath_extends (more : h.Extends h') {result : List α} (walked : walkPath target h links cwd steps = some result) :
    walkPath target h' links cwd steps = some result := by
  induction links generalizing cwd steps result with
  | zero => exact walkSteps_extends more (fun _ _ _ none => none) walked
  | succ links ih => exact walkSteps_extends more (fun _ _ _ followed => ih followed) walked

theorem walkSteps_name {follow : List α → List (PathStep α) → Option (List α)}
    (follows : ∀ start rest, follow start rest = some place → follow start (rest ++ [.name a]) = some (place ++ [a]))
    (walked : walkSteps target h follow cwd steps = some place) (there : h (place ++ [a]) = some .dir) :
    walkSteps target h follow cwd (steps ++ [.name a]) = some (place ++ [a]) := by
  induction steps generalizing cwd with
  | nil =>
    rw [Option.some.inj walked, List.nil_append, walkSteps, there]
    rfl
  | cons step rest ih =>
    cases step with
    | here => exact ih walked
    | up => exact ih walked
    | name b =>
      rw [walkSteps] at walked
      rw [List.cons_append, walkSteps]
      cases next : h (cwd ++ [b]) with
      | none =>
        rw [next] at walked
        cases walked
      | some entry =>
        rw [next] at walked
        cases entry with
        | dir => exact ih walked
        | file data => cases walked
        | link t =>
          have followed := follows _ _ walked
          rw [List.append_assoc] at followed
          exact followed

theorem walkPath_name (walked : walkPath target h links cwd steps = some place) (there : h (place ++ [a]) = some .dir) :
    walkPath target h links cwd (steps ++ [.name a]) = some (place ++ [a]) := by
  induction links generalizing cwd steps with
  | zero => exact walkSteps_name (fun _ _ none => absurd none (Option.some_ne_none place).symm) walked there
  | succ links ih => exact walkSteps_name (fun _ _ followed => ih followed) walked there

theorem lastPlace_name (walked : walkPath target h links cwd steps = some place) (a : α) :
    lastPlace target links h cwd (steps ++ [.name a]) = some (place ++ [a]) := by
  rw [lastPlace, List.getLast?_concat, List.dropLast_concat]
  dsimp only
  rw [walked, Option.map_some]

variable [DecidableEq α]

theorem mkdirHost_fresh (walked : walkPath target h links cwd steps = some place) (free : h (place ++ [a]) = none) :
    mkdirHost target links h cwd (steps ++ [.name a]) = (true, Function.update h (place ++ [a]) (some .dir)) := by
  rw [mkdirHost, lastPlace_name walked]
  dsimp only
  rw [free]
  rfl

theorem createHost_fresh (walked : walkPath target h links cwd steps = some place) (free : h (place ++ [a]) = none) (data : φ) :
    createHost target links h cwd (steps ++ [.name a]) data = some (Function.update h (place ++ [a]) (some (.file data))) := by
  rw [createHost, openPlace, lastPlace_name walked]
  dsimp only
  rw [free]
  rfl

theorem unlinkHost_fresh (walked : walkPath target h links cwd steps = some place) (free : h (place ++ [a]) = none) :
    unlinkHost target links h cwd (steps ++ [.name a]) = h := by
  rw [unlinkHost, lastPlace_name walked]
  dsimp only
  rw [free]
  exact Function.update_eq_self_iff.mpr free.symm

theorem symlinkHost_fresh (walked : walkPath target h links cwd steps = some place) (free : h (place ++ [a]) = none) (t : τ) :
    symlinkHost target links h cwd (steps ++ [.name a]) t = some (Function.update h (place ++ [a]) (some (.link t))) := by
  rw [symlinkHost, lastPlace_name walked]
  dsimp only
  rw [free]
  rfl

end Fresh

/-! ## A tree that is made below a place -/

inductive TreeItem (ι φ τ : Type) where
  | leaf (entry : HostEntry φ τ)
  | sub (child : ι)

section Build

variable {ι α φ τ : Type} [DecidableEq α] (items : ι → List (α × TreeItem ι φ τ))

def buildItems (enter : ι → List α → Host α φ τ → Option (Host α φ τ)) (place : List α) :
    List (α × TreeItem ι φ τ) → Host α φ τ → Option (Host α φ τ)
  | [], h => some h
  | (a, .leaf entry) :: rest, h => buildItems enter place rest (Function.update h (place ++ [a]) (some entry))
  | (a, .sub child) :: rest, h =>
    match enter child (place ++ [a]) (Function.update h (place ++ [a]) (some .dir)) with
    | none => none
    | some h => buildItems enter place rest h

/-- Makes the tree of a directory, as deep as the fuel. -/
def buildTree : Nat → ι → List α → Host α φ τ → Option (Host α φ τ)
  | 0, _, _, _ => none
  | fuel + 1, d, place, h => buildItems (buildTree fuel) place (items d) h

/-- What a tree has behind the names of a path. -/
def lookupTree : List α → ι → Option (HostEntry φ τ)
  | [], _ => some .dir
  | a :: path, d =>
    match (items d).lookup a with
    | none => none
    | some (.leaf entry) => if path = [] then some entry else none
    | some (.sub child) => lookupTree path child

variable {items} {good : ι → Prop} {place : List α} {h h' : Host α φ τ}

/-- Directories with different names, closed under their own directories. -/
structure TreeNamesApart (items : ι → List (α × TreeItem ι φ τ)) (good : ι → Prop) : Prop where
  names : ∀ d, good d → ((items d).map Prod.fst).Nodup
  closed : ∀ d, good d → ∀ a child, (a, .sub child) ∈ items d → good child

def lookupItem (items : ι → List (α × TreeItem ι φ τ)) (path : List α) : Option (TreeItem ι φ τ) → Option (HostEntry φ τ)
  | none => none
  | some (.leaf entry) => if path = [] then some entry else none
  | some (.sub child) => lookupTree items path child

theorem lookupTree_cons (a : α) (path : List α) (d : ι) :
    lookupTree items (a :: path) d = lookupItem items path ((items d).lookup a) := by
  rw [lookupTree, lookupItem.eq_def]

/-- Nothing stands below a place. -/
def FreeBelow (h : Host α φ τ) (place : List α) : Prop := ∀ a path, h (place ++ a :: path) = none

/-- The items stand below the place, and the rest is as it was. -/
structure ItemsMade (items : ι → List (α × TreeItem ι φ τ)) (l : List (α × TreeItem ι φ τ)) (place : List α)
    (h h' : Host α φ τ) : Prop where
  made : ∀ a ∈ l.map Prod.fst, ∀ path, h' (place ++ a :: path) = lookupItem items path (l.lookup a)
  other : ∀ p, (∀ a ∈ l.map Prod.fst, ∀ path, p ≠ place ++ a :: path) → h' p = h p

/-- The tree of a directory stands below the place, and the rest is as it was. -/
structure TreeMade (items : ι → List (α × TreeItem ι φ τ)) (d : ι) (place : List α) (h h' : Host α φ τ) : Prop where
  made : ∀ a path, h' (place ++ a :: path) = lookupTree items (a :: path) d
  other : ∀ p, (∀ a path, p ≠ place ++ a :: path) → h' p = h p

omit [DecidableEq α] in
theorem below_apart {a b : α} (apart : a ≠ b) (place path path' : List α) : place ++ a :: path ≠ place ++ b :: path' :=
  fun same => apart (List.cons.inj (List.append_cancel_left same)).1

omit [DecidableEq α] in
theorem deeper_apart (a b : α) (place path : List α) : place ++ a :: b :: path ≠ place ++ [a] :=
  fun same => List.cons_ne_nil b path (List.cons.inj (List.append_cancel_left same)).2

theorem lookup_self (a : α) (item : TreeItem ι φ τ) (rest : List (α × TreeItem ι φ τ)) :
    ((a, item) :: rest).lookup a = some item := by
  rw [List.lookup_cons, beq_self_eq_true]

theorem lookup_other {a b : α} (apart : a ≠ b) (item : TreeItem ι φ τ) (rest : List (α × TreeItem ι φ τ)) :
    ((b, item) :: rest).lookup a = rest.lookup a := by
  rw [List.lookup_cons, beq_false_of_ne apart]

theorem lookup_absent {a : α} {l : List (α × TreeItem ι φ τ)} (absent : a ∉ l.map Prod.fst) : l.lookup a = none := by
  induction l with
  | nil => rfl
  | cons first rest ih =>
    rw [List.map_cons, List.mem_cons, not_or] at absent
    rw [lookup_other absent.1, ih absent.2]

theorem ItemsMade.tree {d : ι} (made : ItemsMade items (items d) place h h') (free : FreeBelow h place) :
    TreeMade items d place h h' where
  made a path := by
    rw [lookupTree_cons]
    by_cases member : a ∈ (items d).map Prod.fst
    · exact made.made a member path
    · have apart (b : α) (there : b ∈ (items d).map Prod.fst) (path' : List α) :
          place ++ a :: path ≠ place ++ b :: path' := by
        apply below_apart
        rintro rfl
        exact member there
      rw [made.other _ apart, free, lookup_absent member, lookupItem]
  other p outside := made.other p fun a _ path => outside a path

/-- One item in front of others: it stands where they are not. -/
theorem ItemsMade.cons {a : α} {item : TreeItem ι φ τ} {rest : List (α × TreeItem ι φ τ)} {between : Host α φ τ}
    (fresh : a ∉ rest.map Prod.fst) (own : ∀ path, between (place ++ a :: path) = lookupItem items path (some item))
    (kept : ∀ p, (∀ path, p ≠ place ++ a :: path) → between p = h p) (others : ItemsMade items rest place between h') :
    ItemsMade items ((a, item) :: rest) place h h' where
  made b member path := by
    rw [List.map_cons, List.mem_cons] at member
    by_cases same : b = a
    · have apart (c : α) (there : c ∈ rest.map Prod.fst) (path' : List α) : place ++ a :: path ≠ place ++ c :: path' := by
        apply below_apart
        rintro rfl
        exact fresh there
      rw [same, lookup_self, others.other _ apart, own]
    · rw [lookup_other same, others.made b (member.resolve_left same) path]
  other p outside := by
    rw [List.map_cons, List.forall_mem_cons] at outside
    rw [others.other p outside.2, kept p outside.1]

theorem leaf_own (free : ∀ path, h (place ++ a :: path) = none) (entry : HostEntry φ τ) (path : List α) :
    Function.update h (place ++ [a]) (some entry) (place ++ a :: path) = lookupItem items path (some (.leaf entry)) := by
  cases path with
  | nil => rw [Function.update_self, lookupItem, if_pos rfl]
  | cons b path => rw [Function.update_of_ne (deeper_apart a b place path), free, lookupItem, if_neg (List.cons_ne_nil b path)]

theorem sub_free (free : ∀ path, h (place ++ a :: path) = none) (entry : HostEntry φ τ) :
    FreeBelow (Function.update h (place ++ [a]) (some entry)) (place ++ [a]) := by
  intro b path
  rw [List.append_assoc, List.singleton_append, Function.update_of_ne (deeper_apart a b place path), free]

theorem sub_own {child : ι} {before between : Host α φ τ} (made : TreeMade items child (place ++ [a]) before between)
    (there : before (place ++ [a]) = some .dir) (path : List α) :
    between (place ++ a :: path) = lookupItem items path (some (.sub child)) := by
  rw [lookupItem]
  cases path with
  | nil =>
    rw [made.other, there, lookupTree]
    intro b path same
    have lengths := congrArg List.length same
    simp only [List.length_append, List.length_cons, List.length_nil] at lengths
    omega
  | cons b path =>
    have own := made.made b path
    rw [List.append_assoc, List.singleton_append] at own
    exact own

theorem sub_kept {child : ι} {entry : HostEntry φ τ} {between : Host α φ τ}
    (made : TreeMade items child (place ++ [a]) (Function.update h (place ++ [a]) (some entry)) between) {p : List α}
    (outside : ∀ path, p ≠ place ++ a :: path) : between p = h p := by
  rw [made.other, Function.update_of_ne (outside [])]
  intro b path
  rw [List.append_assoc, List.singleton_append]
  exact outside (b :: path)

theorem buildItems_made {enter : ι → List α → Host α φ τ → Option (Host α φ τ)}
    (entered : ∀ child place h h', good child → FreeBelow h place → enter child place h = some h' →
      TreeMade items child place h h') {l : List (α × TreeItem ι φ τ)} (names : (l.map Prod.fst).Nodup)
    (closed : ∀ a child, (a, .sub child) ∈ l → good child) (free : ∀ a ∈ l.map Prod.fst, ∀ path, h (place ++ a :: path) = none)
    (built : buildItems enter place l h = some h') : ItemsMade items l place h h' := by
  induction l generalizing h with
  | nil =>
    rw [← Option.some.inj built]
    exact ⟨fun a member => absurd member List.not_mem_nil, fun p _ => rfl⟩
  | cons first rest ih =>
    cases first with
    | mk a item =>
    rw [List.map_cons, List.nodup_cons] at names
    rw [List.map_cons, List.forall_mem_cons] at free
    have later (b : α) (child : ι) (member : (b, .sub child) ∈ rest) : good child := closed b child (List.mem_cons_of_mem _ member)
    -- what is made of the first item keeps the places of the others free
    have still {between : Host α φ τ} (kept : ∀ p, (∀ path, p ≠ place ++ a :: path) → between p = h p) :
        ∀ b ∈ rest.map Prod.fst, ∀ path, between (place ++ b :: path) = none := by
      intro b member path
      rw [kept, free.2 b member]
      intro path'
      apply below_apart
      rintro rfl
      exact names.1 member
    cases item with
    | leaf entry =>
      rw [buildItems] at built
      have kept (p : List α) (outside : ∀ path, p ≠ place ++ a :: path) :
          Function.update h (place ++ [a]) (some entry) p = h p := Function.update_of_ne (outside []) _ _
      exact .cons names.1 (leaf_own free.1 entry) kept (ih names.2 later (still kept) built)
    | sub child =>
      rw [buildItems] at built
      cases within : enter child (place ++ [a]) (Function.update h (place ++ [a]) (some .dir)) with
      | none =>
        rw [within] at built
        cases built
      | some between =>
        rw [within] at built
        have inner := entered child _ _ _ (closed a child List.mem_cons_self) (sub_free free.1 .dir) within
        have kept (p : List α) (outside : ∀ path, p ≠ place ++ a :: path) : between p = h p := sub_kept inner outside
        exact .cons names.1 (sub_own inner (Function.update_self ..)) kept (ih names.2 later (still kept) built)

/-- A tree with different names in every directory stands as it was looked up. -/
theorem buildTree_made (apart : TreeNamesApart items good) {fuel : Nat} {d : ι} (own : good d) (free : FreeBelow h place)
    (built : buildTree items fuel d place h = some h') : TreeMade items d place h h' := by
  induction fuel generalizing d place h h' with
  | zero => cases built
  | succ fuel ih =>
    have made := buildItems_made (fun child place h h' own free entered => ih own free entered) (apart.names d own)
      (apart.closed d own) (fun a _ path => free a path) built
    exact made.tree free

end Build

end Storage
