import ImgEditor.Core.ListHead
import Mathlib.Data.List.Perm.Basic

namespace ImgEditor

open Storage

inductive ListCall (α : Type) where
  | init (entry : α)
  | add (entry head : α)
  | addTail (entry head : α)
  | del (entry : α)
  | cut (list head : α)
  | spliceFront (list head : α)

section Machine

variable {α : Type}

/-- A cell that goes into a list: it is in no list, or is initialised and has no entries. -/
structure Spare (live : α → Prop) (s : List (List α)) (entry : α) (rest : List (List α)) : Prop where
  live : live entry
  outside : entry ∉ rest.flatten
  lists : s.Perm rest ∨ s.Perm ([entry] :: rest)

/-- What the calls mean for the lists, each written with its head in front. -/
inductive ListStep (live : α → Prop) : List (List α) → ListCall α → List (List α) → Prop where
  | init {s rest : List (List α)} {entry : α} (spare : Spare live s entry rest) :
      ListStep live s (.init entry) ([entry] :: rest)
  | add {s rest : List (List α)} {entry head : α} {xs : List α} (spare : Spare live s entry ((head :: xs) :: rest)) :
      ListStep live s (.add entry head) ((head :: entry :: xs) :: rest)
  | addTail {s rest : List (List α)} {entry head : α} {xs : List α}
      (spare : Spare live s entry ((head :: xs) :: rest)) :
      ListStep live s (.addTail entry head) ((head :: (xs ++ [entry])) :: rest)
  | del {s rest : List (List α)} {entry head : α} {pre post : List α}
      (lists : s.Perm ((head :: (pre ++ entry :: post)) :: rest)) :
      ListStep live s (.del entry) ((head :: (pre ++ post)) :: rest)
  | delSelf {s rest : List (List α)} {entry : α} (lists : s.Perm ([entry] :: rest)) :
      ListStep live s (.del entry) rest
  | cut {s rest : List (List α)} {list head : α} {xs : List α} (spare : Spare live s list ((head :: xs) :: rest)) :
      ListStep live s (.cut list head) ([head] :: (list :: xs) :: rest)
  | spliceFront {s rest : List (List α)} {list head : α} {xs ys : List α} (filled : xs ≠ [])
      (lists : s.Perm ((list :: xs) :: (head :: ys) :: rest)) :
      ListStep live s (.spliceFront list head) ((head :: (xs ++ ys)) :: rest)

inductive ListSteps (live : α → Prop) : List (List α) → List (ListCall α) → List (List α) → Prop where
  | nil {s : List (List α)} : ListSteps live s [] s
  | cons {s t u : List (List α)} {call : ListCall α} {calls : List (ListCall α)} (step : ListStep live s call t)
      (steps : ListSteps live t calls u) : ListSteps live s (call :: calls) u

/-- The memory holds the lists, apart from each other. -/
structure Represents (live : α → Prop) (m : Links α) (s : List (List α)) : Prop where
  live : ∀ a, m.Live a ↔ live a
  rings : ∀ l ∈ s, Ring m l
  distinct : s.flatten.Nodup

variable [DecidableEq α]

def ListCall.run : ListCall α → Links α → Option (Links α)
  | .init entry => listInit (some entry)
  | .add entry head => listAdd (some entry) (some head)
  | .addTail entry head => listAddTail (some entry) (some head)
  | .del entry => listDel (some entry)
  | .cut list head => listCut (some list) (some head)
  | .spliceFront list head => listSpliceFront (some list) (some head)

def listCalls (m : Links α) : List (ListCall α) → Option (Links α)
  | [] => some m
  | call :: calls => (call.run m).bind fun m => listCalls m calls

end Machine

section Refinement

variable {α : Type} {live : α → Prop} {m m' : Links α} {s t rest : List (List α)} {entry : α} {l cells : List α}

theorem Represents.perm (rep : Represents live m s) (same : s.Perm t) : Represents live m t := by
  constructor
  · exact rep.live
  · intro l member
    exact rep.rings l (same.mem_iff.mpr member)
  · exact same.flatten.nodup_iff.mp rep.distinct

theorem Represents.tail (rep : Represents live m (l :: rest)) : Represents live m rest := by
  constructor
  · exact rep.live
  · intro l member
    exact rep.rings l (List.mem_cons_of_mem _ member)
  · exact (List.nodup_append.mp rep.distinct).2.1

theorem Represents.spare (rep : Represents live m s) (spare : Spare live s entry rest) : Represents live m rest := by
  rcases spare.lists with same | same
  · exact rep.perm same
  · exact (rep.perm same).tail

/-- Lists that are rewired, beside lists that are not. -/
theorem Represents.rewired (rep : Represents live m (s ++ rest)) (rewired : Rewired cells m m')
    (distinct : (cells ++ rest.flatten).Nodup) {gone : List α} (within : (t.flatten ++ gone).Perm cells)
    (rings : ∀ l ∈ t, Ring m' l) : Represents live m' (t ++ rest) := by
  constructor
  · intro a
    rw [rewired.live, rep.live]
  · intro l member
    rcases List.mem_append.mp member with member | member
    · exact rings l member
    · apply rewired.ring (rep.rings l (List.mem_append_right s member))
      intro a inside cell
      exact (List.nodup_append.mp distinct).2.2 a cell a (List.mem_flatten.mpr ⟨l, member, inside⟩) rfl
  · rw [List.flatten_append]
    have apart := (within.append_right rest.flatten).nodup_iff.mpr distinct
    rw [List.append_assoc] at apart
    have order : (t.flatten ++ (gone ++ rest.flatten)).Perm (gone ++ (t.flatten ++ rest.flatten)) := by
      rw [← List.append_assoc, ← List.append_assoc]
      exact List.perm_append_comm.append_right _
    exact (List.nodup_append.mp (order.nodup_iff.mp apart)).2.1

theorem Represents.spare_distinct (rep : Represents live m rest) (spare : Spare live s entry rest) :
    (entry :: rest.flatten).Nodup := List.nodup_cons.mpr ⟨spare.outside, rep.distinct⟩

/-- The memory is the lists and these other cells, and nothing else. -/
structure Owns (m : Links α) (idle : List α) (s : List (List α)) : Prop where
  rep : Represents (fun a => a ∈ idle ++ s.flatten) m s
  distinct : (idle ++ s.flatten).Nodup

variable {idle idle' : List α}

theorem Owns.empty : Owns (fun _ : α => none) [] [] := by
  constructor
  · constructor
    · intro a
      simp [Links.Live]
    · simp
    · simp
  · simp

/-- Cells may change their places. -/
theorem Owns.of_perm (rep : Represents (fun a => a ∈ idle ++ s.flatten) m t) (distinct : (idle ++ s.flatten).Nodup)
    (same : (idle ++ s.flatten).Perm (idle' ++ t.flatten)) : Owns m idle' t := by
  constructor
  · constructor
    · intro a
      rw [rep.live, same.mem_iff]
    · exact rep.rings
    · exact rep.distinct
  · exact same.nodup_iff.mp distinct

theorem Owns.perm (owns : Owns m idle s) (same : s.Perm t) : Owns m idle t :=
  Owns.of_perm (owns.rep.perm same) owns.distinct (same.flatten.append_left idle)

theorem Owns.reorder (owns : Owns m idle s) (same : idle.Perm idle') : Owns m idle' s :=
  Owns.of_perm owns.rep owns.distinct (same.append_right _)

/-- A list that is not used any more. -/
theorem Owns.retire (owns : Owns m idle (l :: s)) : Owns m (idle ++ l) s := by
  apply Owns.of_perm owns.rep.tail owns.distinct
  rw [List.flatten_cons, List.append_assoc]

/-- An entry that is initialised, for any list beside it. -/
theorem Owns.spare (owns : Owns m idle ([entry] :: s)) :
    Spare (fun a => a ∈ idle ++ ([entry] :: s).flatten) ([entry] :: s) entry s := by
  have apart := (List.nodup_append.mp owns.distinct).2.1
  exact ⟨by simp, (List.nodup_cons.mp apart).1, .inr (.refl _)⟩

variable [DecidableEq α]

theorem Represents.listDel {left right : List α} (rep : Represents live m ((left ++ entry :: right) :: rest)) :
    ∃ m', ImgEditor.listDel (some entry) m = some m' ∧ Represents live m' ((left ++ right) :: rest) := by
  obtain ⟨m', run, ring, _, rewired⟩ := listDel_list (rep.rings _ List.mem_cons_self)
  refine ⟨m', run, ?_⟩
  apply @Represents.rewired _ _ _ _ [left ++ entry :: right] [left ++ right] _ _ rep rewired rep.distinct [entry]
  · simpa using (List.perm_append_singleton entry (left ++ right)).trans List.perm_middle.symm
  · simpa using ring

/-- Cells that `calloc` has given out. -/
theorem Represents.acquire (rep : Represents live m s) (fresh : ∀ a ∈ cells, ¬ live a) :
    Represents (fun a => live a ∨ a ∈ cells) (m.acquire cells) s := by
  have kept : ∀ l ∈ s, ∀ a ∈ l, a ∉ cells := by
    intro l member a inside cell
    exact fresh a cell ((rep.live a).mp ((rep.rings l member).live inside))
  constructor
  · intro a
    by_cases cell : a ∈ cells
    · simp [Links.acquire_live m cell, cell]
    · rw [Links.Live, Links.acquire_other m cell, ← Links.Live, rep.live a]
      simp [cell]
  · intro l member
    apply (rep.rings l member).frame
    intro a inside
    exact Links.acquire_other m (kept l member a inside)
  · exact rep.distinct

/-- Cells that are in no list any more can be given back. -/
theorem Represents.release (rep : Represents live m s) (held : ∀ a ∈ cells, live a) (idle : ∀ a ∈ cells, a ∉ s.flatten) :
    ∃ m', m.release cells = some m' ∧ Represents (fun a => live a ∧ a ∉ cells) m' s := by
  refine ⟨_, Links.release_eq fun a cell => (rep.live a).mpr (held a cell), ?_⟩
  constructor
  · intro a
    by_cases cell : a ∈ cells
    · simp [Links.Live, cell]
    · rw [← rep.live a]
      simp [Links.Live, cell]
  · intro l member
    apply (rep.rings l member).frame
    intro a inside
    exact if_neg fun cell => idle a cell (List.mem_flatten.mpr ⟨l, member, inside⟩)
  · exact rep.distinct

theorem ListStep.refines {call : ListCall α} (rep : Represents live m s) (step : ListStep live s call t) :
    ∃ m', call.run m = some m' ∧ Represents live m' t := by
  cases step with
  | init spare =>
    have before := rep.spare spare
    obtain ⟨m', run, ring, rewired⟩ := listInit_ring ((rep.live _).mpr spare.live)
    refine ⟨m', run, ?_⟩
    apply @Represents.rewired _ _ _ _ [] [[_]] _ _ before rewired (before.spare_distinct spare) [] (by simp)
    simpa using ring
  | @add rest entry head xs spare =>
    have before := rep.spare spare
    obtain ⟨m', run, ring, rewired⟩ := listAdd_ring (before.rings _ List.mem_cons_self) ((rep.live _).mpr spare.live)
      fun inside => spare.outside (List.mem_append_left _ inside)
    refine ⟨m', run, ?_⟩
    apply @Represents.rewired _ _ _ _ [head :: xs] [head :: entry :: xs] _ _ before rewired
      (before.spare_distinct spare) []
    · simpa using List.Perm.swap entry head xs
    · simpa using ring
  | @addTail rest entry head xs spare =>
    have before := rep.spare spare
    obtain ⟨m', run, ring, rewired⟩ := listAddTail_ring (before.rings _ List.mem_cons_self)
      ((rep.live _).mpr spare.live) fun inside => spare.outside (List.mem_append_left _ inside)
    refine ⟨m', run, ?_⟩
    apply @Represents.rewired _ _ _ _ [head :: xs] [head :: (xs ++ [entry])] _ _ before rewired
      (before.spare_distinct spare) []
    · simpa using (List.perm_append_singleton entry (head :: xs))
    · simpa using ring
  | @del rest entry head pre post lists => exact @Represents.listDel _ _ _ _ _ _ (head :: pre) post (rep.perm lists)
  | @delSelf rest entry lists =>
    obtain ⟨m', run, rep'⟩ := @Represents.listDel _ _ _ _ _ _ [] [] (rep.perm lists)
    exact ⟨m', run, rep'.tail⟩
  | @cut rest list head xs spare =>
    have before := rep.spare spare
    obtain ⟨m', run, ring, ring', rewired⟩ := listCut_ring (before.rings _ List.mem_cons_self)
      ((rep.live _).mpr spare.live) fun inside => spare.outside (List.mem_append_left _ inside)
    refine ⟨m', run, ?_⟩
    apply @Represents.rewired _ _ _ _ [head :: xs] [[head], list :: xs] _ _ before rewired
      (before.spare_distinct spare) []
    · simpa using List.Perm.swap list head xs
    · simpa using ⟨ring, ring'⟩
  | @spliceFront rest list head xs ys filled lists =>
    have before := rep.perm lists
    have distinct := before.distinct
    rw [List.flatten_cons, List.flatten_cons, ← List.append_assoc] at distinct
    have apart : List.Disjoint (list :: xs) (head :: ys) :=
      (List.nodup_append'.mp (List.nodup_append.mp distinct).1).2.2
    obtain ⟨m', run, ring, rewired⟩ := listSpliceFront_ring (before.rings _ List.mem_cons_self) filled
      (before.rings _ (List.mem_cons_of_mem _ List.mem_cons_self)) apart
    refine ⟨m', run, ?_⟩
    apply @Represents.rewired _ _ _ _ [list :: xs, head :: ys] [head :: (xs ++ ys)] _ _ before rewired distinct [list]
    · simpa using (List.perm_append_singleton list (head :: (xs ++ ys))).trans (List.perm_middle.symm.cons list)
    · simpa using ring

theorem Owns.acquire (owns : Owns m idle s) (fresh : ∀ a ∈ cells, a ∉ idle ++ s.flatten) (apart : cells.Nodup) :
    Owns (m.acquire cells) (cells ++ idle) s := by
  have rep := owns.rep.acquire fresh
  constructor
  · constructor
    · intro a
      rw [rep.live, or_comm, ← List.mem_append, List.append_assoc]
    · exact rep.rings
    · exact rep.distinct
  · rw [List.append_assoc, List.nodup_append]
    exact ⟨apart, owns.distinct, fun a cell b held same => fresh a cell (same ▸ held)⟩

theorem Owns.release (owns : Owns m (cells ++ idle) s) : ∃ m', m.release cells = some m' ∧ Owns m' idle s := by
  have distinct := owns.distinct
  rw [List.append_assoc] at distinct
  have apart := List.nodup_append.mp distinct
  obtain ⟨m', run, rep⟩ := @Represents.release _ _ _ _ cells _ owns.rep
    (fun a cell => List.mem_append_left _ (List.mem_append_left _ cell))
    (fun a cell held => apart.2.2 a cell a (List.mem_append_right _ held) rfl)
  refine ⟨m', run, ?_, apart.2.1⟩
  constructor
  · intro a
    rw [rep.live, List.append_assoc, List.mem_append]
    constructor
    · rintro ⟨held | held, out⟩
      · exact absurd held out
      · exact held
    · intro held
      exact ⟨.inr held, fun cell => apart.2.2 a cell a held rfl⟩
  · exact rep.rings
  · exact rep.distinct

theorem Owns.listInit (owns : Owns m (entry :: idle) s) :
    ∃ m', ImgEditor.listInit (some entry) m = some m' ∧ Owns m' idle ([entry] :: s) := by
  have apart := (List.nodup_cons.mp owns.distinct).1
  have spare : Spare (fun a => a ∈ entry :: idle ++ s.flatten) s entry s :=
    ⟨List.mem_cons_self, fun held => apart (List.mem_append_right _ held), .inl (.refl _)⟩
  obtain ⟨m', run, rep⟩ := (ListStep.init spare).refines owns.rep
  refine ⟨m', run, Owns.of_perm rep owns.distinct ?_⟩
  exact List.perm_middle.symm

theorem Owns.listAdd {head : α} {xs : List α} (owns : Owns m idle ([entry] :: (head :: xs) :: s)) :
    ∃ m', ImgEditor.listAdd (some entry) (some head) m = some m' ∧ Owns m' idle ((head :: entry :: xs) :: s) := by
  obtain ⟨m', run, rep⟩ := (ListStep.add owns.spare).refines owns.rep
  refine ⟨m', run, Owns.of_perm rep owns.distinct (List.Perm.append_left idle ?_)⟩
  simpa using List.Perm.swap head entry (xs ++ s.flatten)

theorem Owns.listAddTail {head : α} {xs : List α} (owns : Owns m idle ([entry] :: (head :: xs) :: s)) :
    ∃ m', ImgEditor.listAddTail (some entry) (some head) m = some m' ∧
      Owns m' idle ((head :: (xs ++ [entry])) :: s) := by
  obtain ⟨m', run, rep⟩ := (ListStep.addTail owns.spare).refines owns.rep
  refine ⟨m', run, Owns.of_perm rep owns.distinct (List.Perm.append_left idle ?_)⟩
  simpa using (List.perm_append_singleton entry (head :: xs)).symm.append_right s.flatten

theorem Owns.listDel {left right : List α} (owns : Owns m idle ((left ++ entry :: right) :: s)) :
    ∃ m', ImgEditor.listDel (some entry) m = some m' ∧ Owns m' (entry :: idle) ((left ++ right) :: s) := by
  obtain ⟨m', run, rep⟩ := owns.rep.listDel
  refine ⟨m', run, Owns.of_perm rep owns.distinct ?_⟩
  have out : (left ++ entry :: right ++ s.flatten).Perm (entry :: (left ++ right ++ s.flatten)) := by
    rw [List.append_assoc, List.append_assoc]
    exact List.perm_middle
  exact (out.append_left idle).trans List.perm_middle

theorem ListSteps.refines {calls : List (ListCall α)} (rep : Represents live m s) (steps : ListSteps live s calls t) :
    ∃ m', listCalls m calls = some m' ∧ Represents live m' t := by
  induction steps generalizing m with
  | nil => exact ⟨m, rfl, rep⟩
  | cons step _ ih =>
    obtain ⟨next, run, rep'⟩ := step.refines rep
    obtain ⟨last, runs, rep''⟩ := ih rep'
    refine ⟨last, ?_, rep''⟩
    rw [listCalls, run, Option.bind_some, runs]

end Refinement

/-- Nodes with a list of nodes each. -/
inductive Rose (ι : Type) where
  | node (id : ι) (children : List (Rose ι))

namespace Rose

variable {ι κ : Type}

def id : Rose ι → ι
  | .node id _ => id

def children : Rose ι → List (Rose ι)
  | .node _ children => children

mutual

def size : Rose ι → Nat
  | .node _ children => sizeAll children + 1

def sizeAll : List (Rose ι) → Nat
  | [] => 0
  | c :: cs => c.size + sizeAll cs

end

mutual

def ids : Rose ι → List ι
  | .node id children => id :: idsAll children

def idsAll : List (Rose ι) → List ι
  | [] => []
  | c :: cs => c.ids ++ idsAll cs

end

/-- The list that a node with the list head `list id` has, of entries `entry id` of its children. -/
def list (entry list : ι → κ) (t : Rose ι) : List κ := list t.id :: t.children.map fun c => entry c.id

mutual

/-- The lists of all nodes. -/
def lists (entry list : ι → κ) : Rose ι → List (List κ)
  | .node id children => (Rose.node id children).list entry list :: listsAll entry list children

def listsAll (entry list : ι → κ) : List (Rose ι) → List (List κ)
  | [] => []
  | c :: cs => c.lists entry list ++ listsAll entry list cs

end

variable {entry list : ι → κ} {cs ds : List (Rose ι)}

theorem list_node (id : ι) (cs : List (Rose ι)) :
    (Rose.node id cs).list entry list = list id :: cs.map fun c => entry c.id := rfl

theorem length_le_sizeAll (cs : List (Rose ι)) : cs.length ≤ sizeAll cs := by
  induction cs with
  | nil => exact Nat.zero_le _
  | cons c cs ih =>
    cases c with
    | node id children =>
      rw [List.length_cons, sizeAll, size]
      omega

theorem size_le_sizeAll {c : Rose ι} (member : c ∈ cs) : c.size ≤ sizeAll cs := by
  induction member with
  | head => exact Nat.le_add_right _ _
  | tail _ _ ih => exact Nat.le_trans ih (Nat.le_add_left _ _)

theorem listsAll_append : listsAll entry list (cs ++ ds) = listsAll entry list cs ++ listsAll entry list ds := by
  induction cs with
  | nil => rfl
  | cons c cs ih => rw [List.cons_append, listsAll, ih, listsAll, List.append_assoc]

theorem idsAll_append : idsAll (cs ++ ds) = idsAll cs ++ idsAll ds := by
  induction cs with
  | nil => rfl
  | cons c cs ih => rw [List.cons_append, idsAll, ih, idsAll, List.append_assoc]

theorem exists_mem_append {p : ι → Prop} {ids ids' : List ι} :
    (∃ id ∈ ids ++ ids', p id) ↔ (∃ id ∈ ids, p id) ∨ ∃ id ∈ ids', p id := by
  simp only [List.mem_append, or_and_right, exists_or]

mutual

/-- The list heads and entries of a tree are those of its nodes; its root's entry is elsewhere. -/
theorem mem_lists (t : Rose ι) {a : κ} :
    a = entry t.id ∨ a ∈ (t.lists entry list).flatten ↔ ∃ id ∈ t.ids, a = entry id ∨ a = list id := by
  cases t with
  | node id children =>
    have below := mem_listsAll children (a := a)
    rw [ids, lists, list_node, List.flatten_cons, List.cons_append, List.mem_cons, List.mem_append, below]
    rw [List.exists_mem_cons_iff]
    exact or_assoc.symm

theorem mem_listsAll (cs : List (Rose ι)) {a : κ} :
    (a ∈ cs.map fun c => entry c.id) ∨ a ∈ (listsAll entry list cs).flatten ↔
      ∃ id ∈ idsAll cs, a = entry id ∨ a = list id := by
  cases cs with
  | nil => simp [listsAll, idsAll]
  | cons c cs =>
    have front := mem_lists c (a := a)
    have back := mem_listsAll cs (a := a)
    rw [listsAll, idsAll, List.map_cons, List.mem_cons, List.flatten_append, List.mem_append, exists_mem_append, ← front,
      ← back]
    exact or_or_or_comm

end

end Rose

/-- A change of one node somewhere in a tree. -/
inductive Rose.Edit {ι : Type} (change : Rose ι → Rose ι → Prop) : Rose ι → Rose ι → Prop where
  | here {t t' : Rose ι} (changed : change t t') (same : t'.id = t.id) : Edit change t t'
  | deep {id : ι} {c c' : Rose ι} {before after : List (Rose ι)} (edit : Edit change c c') :
      Edit change (.node id (before ++ c :: after)) (.node id (before ++ c' :: after))

section Edit

variable {ι κ : Type} {change : Rose ι → Rose ι → Prop} {t t' : Rose ι}

theorem Rose.sizeAll_append {cs ds : List (Rose ι)} : sizeAll (cs ++ ds) = sizeAll cs + sizeAll ds := by
  induction cs with
  | nil => rw [List.nil_append, sizeAll, Nat.zero_add]
  | cons c cs ih => rw [List.cons_append, sizeAll, ih, sizeAll, Nat.add_assoc]

theorem Rose.sizeAll_perm {cs ds : List (Rose ι)} (same : cs.Perm ds) : sizeAll cs = sizeAll ds := by
  induction same with
  | nil => rfl
  | cons c _ ih => rw [sizeAll, ih, sizeAll]
  | swap c d cs => simp only [sizeAll, Nat.add_left_comm]
  | trans _ _ ih ih' => exact ih.trans ih'

theorem Rose.Edit.id (edit : Edit change t t') : t'.id = t.id := by
  cases edit with
  | here _ same => exact same
  | deep _ => rfl

/-- A change leaves all lists but those of its node alone. -/
theorem Rose.Edit.lists (edit : Edit change t t') (entry list : ι → κ) :
    ∃ u u' rest, change u u' ∧ u'.id = u.id ∧ (t.lists entry list).Perm (u.lists entry list ++ rest) ∧
      (t'.lists entry list).Perm (u'.lists entry list ++ rest) ∧ t.size + u'.size = t'.size + u.size := by
  induction edit with
  | @here t t' changed same =>
    refine ⟨t, t', [], changed, same, ?_, ?_, Nat.add_comm _ _⟩
    · rw [List.append_nil]
    · rw [List.append_nil]
  | @deep id c c' before after edit ih =>
    obtain ⟨u, u', rest, changed, same, lists, lists', sizes⟩ := ih
    have around (d : Rose ι) : ((Rose.node id (before ++ d :: after)).lists entry list).Perm
        (d.lists entry list ++ ((Rose.node id (before ++ d :: after)).list entry list ::
          (listsAll entry list before ++ listsAll entry list after))) := by
      rw [Rose.lists, listsAll_append, listsAll]
      refine List.Perm.trans ?_ List.perm_middle.symm
      apply List.Perm.cons
      rw [← List.append_assoc, ← List.append_assoc]
      exact List.perm_append_comm.append_right _
    have kept : (Rose.node id (before ++ c' :: after)).list entry list =
        (Rose.node id (before ++ c :: after)).list entry list := by
      rw [list_node, list_node, List.map_append, List.map_append, List.map_cons, List.map_cons, edit.id]
    refine ⟨u, u', rest ++ ((Rose.node id (before ++ c :: after)).list entry list ::
      (listsAll entry list before ++ listsAll entry list after)), changed, same, ?_, ?_, ?_⟩
    · rw [← List.append_assoc]
      exact (around c).trans (lists.append_right _)
    · rw [← List.append_assoc, ← kept]
      exact (around c').trans (lists'.append_right _)
    · simp only [size, sizeAll_append, sizeAll]
      omega

end Edit

end ImgEditor
