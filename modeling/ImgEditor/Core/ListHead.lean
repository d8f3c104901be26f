import ImgEditor.Storage.Ring

namespace ImgEditor

open Storage

section Functions

variable {α : Type} [DecidableEq α]

def listInit (entry : Option α) (m : Links α) : Option (Links α) := do
  let m ← m.setNext entry entry
  m.setPrev entry entry

def listEmpty (entry : Option α) (m : Links α) : Option Bool := do
  let next ← m.getNext entry
  some (next = entry)

def listAdd (entry head : Option α) (m : Links α) : Option (Links α) := do
  let m ← m.setNext entry (← m.getNext head)
  let m ← m.setPrev entry head
  let m ← m.setPrev (← m.getNext head) entry
  m.setNext head entry

def listAddTail (entry head : Option α) (m : Links α) : Option (Links α) := do
  let m ← m.setNext entry head
  let m ← m.setPrev entry (← m.getPrev head)
  let m ← m.setNext (← m.getPrev head) entry
  m.setPrev head entry

def listDel (entry : Option α) (m : Links α) : Option (Links α) := do
  let m ← m.setPrev (← m.getNext entry) (← m.getPrev entry)
  let m ← m.setNext (← m.getPrev entry) (← m.getNext entry)
  let m ← m.setPrev entry none
  m.setNext entry none

def listCut (list head : Option α) (m : Links α) : Option (Links α) := do
  if (← listEmpty head m) then listInit list m
  else
    let m ← m.setNext list (← m.getNext head)
    let m ← m.setPrev (← m.getNext list) list
    let m ← m.setPrev list (← m.getPrev head)
    let m ← m.setNext (← m.getPrev list) list
    listInit head m

def listSpliceFront (list head : Option α) (m : Links α) : Option (Links α) := do
  let m ← m.setPrev (← m.getNext list) head
  let m ← m.setNext (← m.getPrev list) (← m.getNext head)
  let m ← m.setPrev (← m.getNext head) (← m.getPrev list)
  m.setNext head (← m.getNext list)

/-- The cells that `list_for_each_entry` comes to from `pos` on. -/
def listForEach (m : Links α) (head : Option α) : Nat → Option α → Option (List α)
  | 0, _ => none
  | fuel + 1, pos =>
    if pos = head then some []
    else do
      let a ← pos
      let rest ← listForEach m head fuel (← m.getNext pos)
      some (a :: rest)

/-- `list_for_each_entry_safe` from `pos` on, where `n` comes next. -/
def listForEachSafeFrom (body : α → Links α → Option (Links α)) (head : Option α) :
    Nat → Option α → Option α → Links α → Option (Links α)
  | 0, _, _, _ => none
  | fuel + 1, pos, n, m =>
    if pos = head then some m
    else do
      let m ← body (← pos) m
      listForEachSafeFrom body head fuel n (← m.getNext n) m

def listForEachSafe (body : α → Links α → Option (Links α)) (head : Option α) (fuel : Nat) (m : Links α) :
    Option (Links α) := do
  let pos ← m.getNext head
  listForEachSafeFrom body head fuel pos (← m.getNext pos) m

end Functions

section Rings

variable {α : Type} [DecidableEq α] {m m' : Links α} {entry head list first last : α} {xs ys pre post cells : List α}

theorem listInit_run (live : m.Live entry) :
    listInit (some entry) m = some ((m.putNext entry entry).putPrev entry entry) := by
  simp [listInit, Links.setNext_eq, Links.setPrev_eq, live]

theorem listInit_ring (live : m.Live entry) :
    ∃ m', listInit (some entry) m = some m' ∧ Ring m' [entry] ∧ Rewired [entry] m m' := by
  refine ⟨_, listInit_run live, ?_, ?_⟩
  · apply Ring.single
    constructor <;> simp [Links.putNext_nextOf, Links.putPrev_prevOf, live]
  · exact (Rewired.refl.putNext _ List.mem_cons_self).putPrev _ List.mem_cons_self

theorem listEmpty_ring (ring : Ring m (head :: xs)) : listEmpty (some head) m = some (decide (xs = [])) := by
  cases xs with
  | nil => simp [listEmpty, ring.next rfl]
  | cons x xs =>
    have apart : x ≠ head := fun same => (List.nodup_cons.mp ring.distinct).1 (same ▸ List.mem_cons_self)
    simp [listEmpty, ring.next rfl, apart]

theorem listAddTail_run (live : m.Live entry) (liveHead : m.Live head) (liveLast : m.Live last) (apart : head ≠ entry)
    (back : m.prevOf head = some (some last)) :
    listAddTail (some entry) (some head) m =
      some ((((m.putNext entry head).putPrev entry last).putNext last entry).putPrev head entry) := by
  simp [listAddTail, Links.setNext_eq, Links.setPrev_eq, Links.putPrev_prevOf, live, liveHead, liveLast, apart, back]

theorem listAddTail_ring (ring : Ring m (head :: xs)) (live : m.Live entry) (fresh : entry ∉ head :: xs) :
    ∃ m', listAddTail (some entry) (some head) m = some m' ∧ Ring m' (head :: (xs ++ [entry])) ∧
      Rewired (entry :: head :: xs) m m' := by
  obtain ⟨last, ends⟩ : ∃ last, (head :: xs).getLast? = some last := ⟨_, List.getLast?_cons⟩
  have inside := List.mem_of_getLast? ends
  have apart : head ≠ entry := fun same => fresh (same ▸ List.mem_cons_self)
  have apartLast : last ≠ entry := fun same => fresh (same ▸ inside)
  have liveHead := ring.live List.mem_cons_self
  have liveLast := ring.live inside
  refine ⟨_, listAddTail_run live liveHead liveLast apart (ring.prev ends), ?_, ?_⟩
  · show Ring _ ((head :: xs) ++ [entry])
    apply Ring.rotate
    apply ring.insert fresh rfl ends
    · constructor <;> simp [Links.putNext_nextOf, Links.putPrev_prevOf, live, liveHead, liveLast, Ne.symm apartLast]
    · constructor <;> simp [Links.putNext_nextOf, Links.putPrev_prevOf, live, liveHead, liveLast, Ne.symm apart]
    · intro u member other
      have known : u ≠ entry := fun same => fresh (same ▸ member)
      simp [Links.putNext_nextOf, live, liveLast, other, known]
    · intro v member other
      have known : v ≠ entry := fun same => fresh (same ▸ member)
      simp [Links.putPrev_prevOf, live, liveHead, other, known]
  · have lastCell := List.mem_cons_of_mem entry inside
    exact (((Rewired.refl.putNext _ (by simp)).putPrev _ (by simp)).putNext _ lastCell).putPrev _ (by simp)

theorem listAdd_run (live : m.Live entry) (liveHead : m.Live head) (liveFirst : m.Live first) (apart : head ≠ entry)
    (front : m.nextOf head = some (some first)) :
    listAdd (some entry) (some head) m =
      some ((((m.putNext entry first).putPrev entry head).putPrev first entry).putNext head entry) := by
  simp [listAdd, Links.setNext_eq, Links.setPrev_eq, Links.putNext_nextOf, live, liveHead, liveFirst, apart, front]

theorem listAdd_ring (ring : Ring m (head :: xs)) (live : m.Live entry) (fresh : entry ∉ head :: xs) :
    ∃ m', listAdd (some entry) (some head) m = some m' ∧ Ring m' (head :: entry :: xs) ∧
      Rewired (entry :: head :: xs) m m' := by
  obtain ⟨first, starts⟩ := concat_starts xs head
  have inside : first ∈ head :: xs := by simpa [or_comm] using List.mem_of_head? starts
  have apart : head ≠ entry := fun same => fresh (same ▸ List.mem_cons_self)
  have apartFirst : first ≠ entry := fun same => fresh (same ▸ inside)
  have liveHead := ring.live List.mem_cons_self
  have liveFirst := ring.live inside
  have turned : Ring m (xs ++ [head]) := Ring.rotate (show Ring m ([head] ++ xs) from ring)
  have outside : entry ∉ xs ++ [head] := fun member => fresh (by simpa [or_comm] using member)
  refine ⟨_, listAdd_run live liveHead liveFirst apart (ring.next starts), ?_, ?_⟩
  · show Ring _ ([head] ++ (entry :: xs))
    apply Ring.rotate
    apply turned.insert outside starts List.getLast?_concat
    · constructor <;> simp [Links.putNext_nextOf, Links.putPrev_prevOf, live, liveHead, liveFirst, Ne.symm apart]
    · constructor <;> simp [Links.putNext_nextOf, Links.putPrev_prevOf, live, liveHead, liveFirst, Ne.symm apartFirst]
    · intro u member other
      have known : u ≠ entry := fun same => outside (same ▸ member)
      simp [Links.putNext_nextOf, live, liveHead, other, known]
    · intro v member other
      have known : v ≠ entry := fun same => outside (same ▸ member)
      simp [Links.putPrev_prevOf, live, liveFirst, other, known]
  · have firstCell := List.mem_cons_of_mem entry inside
    exact (((Rewired.refl.putNext _ (by simp)).putPrev _ (by simp)).putPrev _ firstCell).putNext _ (by simp)

theorem listDel_run (live : m.Live entry) (liveFirst : m.Live first) (liveLast : m.Live last)
    (front : m.nextOf entry = some (some first)) (back : m.prevOf entry = some (some last)) :
    listDel (some entry) m =
      some ((((m.putPrev first last).putNext last first).putPrev entry none).putNext entry none) := by
  by_cases alone : first = entry
  · subst alone
    simp [listDel, Links.setNext_eq, Links.setPrev_eq, Links.putPrev_prevOf, live, liveLast, front, back]
  · simp [listDel, Links.setNext_eq, Links.setPrev_eq, Links.putPrev_prevOf, live, liveFirst, liveLast, front, back,
      Ne.symm alone]

/-- A deleted entry points to nothing, and its neighbours to each other. -/
theorem listDel_ring (ring : Ring m (entry :: xs)) :
    ∃ m', listDel (some entry) m = some m' ∧ Ring m' xs ∧ m' entry = some ⟨none, none⟩ ∧
      Rewired (entry :: xs) m m' := by
  have live := ring.live List.mem_cons_self
  obtain ⟨first, starts⟩ := concat_starts xs entry
  obtain ⟨last, ends⟩ : ∃ last, (entry :: xs).getLast? = some last := ⟨_, List.getLast?_cons⟩
  have firstCell : first ∈ entry :: xs := by simpa [or_comm] using List.mem_of_head? starts
  have lastCell := List.mem_of_getLast? ends
  have liveFirst := ring.live firstCell
  have liveLast := ring.live lastCell
  have run := listDel_run live liveFirst liveLast (ring.next starts) (ring.prev ends)
  refine ⟨_, run, ?_, ?_, ?_⟩
  · cases xs with
    | nil => exact Ring.nil
    | cons x xs =>
      obtain rfl : x = first := Option.some.inj starts
      rw [List.getLast?_cons_cons] at ends
      have apart := (List.nodup_cons.mp ring.distinct).1
      have apartFirst : x ≠ entry := fun same => apart (same ▸ List.mem_cons_self)
      have apartLast : last ≠ entry := fun same => apart (same ▸ List.mem_of_getLast? ends)
      apply ring.remove rfl ends
      · constructor <;> simp [Links.putNext_nextOf, Links.putPrev_prevOf, live, liveFirst, liveLast, apartFirst, apartLast]
      · intro u member other
        have known : u ≠ entry := fun same => apart (same ▸ member)
        simp [Links.putNext_nextOf, live, liveLast, other, known]
      · intro v member other
        have known : v ≠ entry := fun same => apart (same ▸ member)
        simp [Links.putPrev_prevOf, live, liveFirst, other, known]
  · apply Links.eq_link
    · simp [Links.putPrev_prevOf, live]
    · simp [Links.putNext_nextOf, live]
  · exact (((Rewired.refl.putPrev _ firstCell).putNext _ lastCell).putPrev _ (by simp)).putNext _ (by simp)

/-- `list_del` on an entry in the middle of a list. -/
theorem listDel_list (ring : Ring m (pre ++ entry :: post)) :
    ∃ m', listDel (some entry) m = some m' ∧ Ring m' (pre ++ post) ∧ m' entry = some ⟨none, none⟩ ∧
      Rewired (pre ++ entry :: post) m m' := by
  have turned : Ring m (entry :: (post ++ pre)) := Ring.rotate ring
  obtain ⟨m', run, ring', gone, rewired⟩ := listDel_ring turned
  refine ⟨m', run, ring'.rotate, gone, rewired.wider ?_⟩
  intro a member
  simp only [List.mem_cons, List.mem_append] at member ⊢
  tauto

theorem listCut_run (live : m.Live list) (liveHead : m.Live head) (liveFirst : m.Live first) (liveLast : m.Live last)
    (front : m.nextOf head = some (some first)) (back : m.prevOf head = some (some last))
    (apartFirst : first ≠ head) :
    listCut (some list) (some head) m =
      some ((((((m.putNext list first).putPrev first list).putPrev list last).putNext last list).putNext head head).putPrev
        head head) := by
  simp [listCut, listEmpty, listInit, Links.setNext_eq, Links.setPrev_eq, Links.putPrev_prevOf, Links.putNext_nextOf,
    live, liveHead, liveFirst, liveLast, front, back, apartFirst, Ne.symm apartFirst]

theorem listCut_ring (ring : Ring m (head :: xs)) (live : m.Live list) (fresh : list ∉ head :: xs) :
    ∃ m', listCut (some list) (some head) m = some m' ∧ Ring m' [head] ∧ Ring m' (list :: xs) ∧
      Rewired (list :: head :: xs) m m' := by
  have liveHead := ring.live List.mem_cons_self
  cases xs with
  | nil =>
    have apart : head ≠ list := fun same => fresh (same ▸ List.mem_cons_self)
    obtain ⟨m', run, ring', rewired⟩ := listInit_ring live
    refine ⟨m', ?_, rewired.ring ring ?_, ring', rewired.wider ?_⟩
    · rw [listCut, listEmpty_ring ring]
      exact run
    · simpa using apart
    · simp
  | cons x xs =>
    obtain ⟨last, ends⟩ : ∃ last, (x :: xs).getLast? = some last := ⟨_, List.getLast?_cons⟩
    have distinct := List.nodup_cons.mp ring.distinct
    have lastCell := List.mem_of_getLast? ends
    have apart : head ≠ list := fun same => fresh (same ▸ List.mem_cons_self)
    have apartFirst : x ≠ head := fun same => distinct.1 (same ▸ List.mem_cons_self)
    have apartLast : last ≠ head := fun same => distinct.1 (same ▸ lastCell)
    have outside : list ∉ x :: xs := fun member => fresh (List.mem_cons_of_mem _ member)
    have awayFirst : x ≠ list := fun same => outside (same ▸ List.mem_cons_self)
    have awayLast : last ≠ list := fun same => outside (same ▸ lastCell)
    have liveFirst := ring.live (List.mem_cons_of_mem head List.mem_cons_self)
    have liveLast := ring.live (List.mem_cons_of_mem head lastCell)
    have back := ring.prev (List.getLast?_cons_cons.trans ends)
    refine ⟨_, listCut_run live liveHead liveFirst liveLast (ring.next rfl) back apartFirst, ?_, ?_, ?_⟩
    · apply Ring.single
      constructor <;> simp [Links.putNext_nextOf, Links.putPrev_prevOf, liveHead]
    · apply Ring.close (List.nodup_cons.mpr ⟨outside, distinct.2⟩) _ rfl ends
      · constructor <;> simp [Links.putNext_nextOf, Links.putPrev_prevOf, live, liveHead, liveFirst, liveLast, apartFirst,
          awayFirst, Ne.symm apart, Ne.symm awayLast]
      · constructor <;> simp [Links.putNext_nextOf, Links.putPrev_prevOf, live, liveHead, liveLast, apartLast,
          Ne.symm apart]
      · apply chain_kept distinct.2 (List.isChain_cons.mp ring.chain).2
        · intro u member inside
          have known : u ≠ list := fun same => outside (same ▸ member)
          have known' : u ≠ head := fun same => distinct.1 (same ▸ member)
          have known'' : u ≠ last := fun same => inside (same ▸ ends)
          simp [Links.putNext_nextOf, live, liveHead, liveLast, known, known', known'']
        · intro v member inside
          have known : v ≠ list := fun same => outside (same ▸ member)
          have known' : v ≠ head := fun same => distinct.1 (same ▸ member)
          have known'' : v ≠ x := fun same => inside (same ▸ rfl)
          simp [Links.putPrev_prevOf, live, liveHead, liveFirst, known, known', known'']
    · have lastIn : last ∈ list :: head :: x :: xs := List.mem_cons_of_mem _ (List.mem_cons_of_mem _ lastCell)
      exact (((((Rewired.refl.putNext _ (by simp)).putPrev _ (by simp)).putPrev _ (by simp)).putNext _ lastIn).putNext _
        (by simp)).putPrev _ (by simp)

theorem listSpliceFront_run (liveHead : m.Live head) {next : α} (liveFirst : m.Live first) (liveLast : m.Live last)
    (liveNext : m.Live next) (front : m.nextOf list = some (some first)) (back : m.prevOf list = some (some last))
    (after : m.nextOf head = some (some next)) (awayFirst : list ≠ first) (awayLast : list ≠ last)
    (apart : head ≠ last) :
    listSpliceFront (some list) (some head) m =
      some ((((m.putPrev first head).putNext last next).putPrev next last).putNext head first) := by
  simp [listSpliceFront, Links.setNext_eq, Links.setPrev_eq, Links.putPrev_prevOf, Links.putNext_nextOf, liveHead,
    liveFirst, liveLast, liveNext, front, back, after, awayFirst, awayLast, apart]

/-- `list_splice_front` for a list that is not empty; its own head goes out of use. -/
theorem listSpliceFront_ring (ring : Ring m (list :: xs)) (some_ : xs ≠ []) (ringHead : Ring m (head :: ys))
    (apart : List.Disjoint (list :: xs) (head :: ys)) :
    ∃ m', listSpliceFront (some list) (some head) m = some m' ∧ Ring m' (head :: (xs ++ ys)) ∧
      Rewired (list :: xs ++ head :: ys) m m' := by
  cases xs with
  | nil => exact absurd rfl some_
  | cons x xs =>
  obtain ⟨last, ends⟩ : ∃ last, (x :: xs).getLast? = some last := ⟨_, List.getLast?_cons⟩
  obtain ⟨next, starts⟩ := concat_starts ys head
  have distinct := List.nodup_cons.mp ring.distinct
  have distinctHead := List.nodup_cons.mp ringHead.distinct
  have lastCell := List.mem_of_getLast? ends
  have nextCell : next ∈ head :: ys := by simpa [or_comm] using List.mem_of_head? starts
  have inList {a : α} (member : a ∈ x :: xs) : a ∈ list :: x :: xs := List.mem_cons_of_mem _ member
  have away {a b : α} (left : a ∈ x :: xs) (right : b ∈ head :: ys) : a ≠ b :=
    fun same => apart (inList left) (same ▸ right)
  have awayHead := away lastCell List.mem_cons_self
  have awayFirst := away List.mem_cons_self List.mem_cons_self
  have awayNext := away lastCell nextCell
  have liveHead := ringHead.live List.mem_cons_self
  have liveNext := ringHead.live nextCell
  have liveFirst := ring.live (inList List.mem_cons_self)
  have liveLast := ring.live (inList lastCell)
  have run := listSpliceFront_run liveHead liveFirst liveLast liveNext (ring.next rfl)
    (ring.prev (List.getLast?_cons_cons.trans ends)) (ringHead.next starts)
    (fun same => distinct.1 (same ▸ List.mem_cons_self)) (fun same => distinct.1 (same ▸ lastCell))
    (Ne.symm awayHead)
  refine ⟨_, run, ?_, ?_⟩
  · have front : (x :: xs).IsChain (Joined ((((m.putPrev x head).putNext last next).putPrev next last).putNext head x)) := by
      apply chain_kept distinct.2 (List.isChain_cons.mp ring.chain).2
      · intro u member inside
        have known : u ≠ last := fun same => inside (same ▸ ends)
        simp [Links.putNext_nextOf, liveHead, liveLast, known, away member List.mem_cons_self]
      · intro v member inside
        have known : v ≠ x := fun same => inside (same ▸ rfl)
        simp [Links.putPrev_prevOf, liveFirst, liveNext, known, away member nextCell]
    have back : ys.IsChain (Joined ((((m.putPrev x head).putNext last next).putPrev next last).putNext head x)) := by
      apply chain_kept distinctHead.2 (List.isChain_cons.mp ringHead.chain).2
      · intro u member inside
        have known : u ≠ head := fun same => distinctHead.1 (same ▸ member)
        have known' := away lastCell (List.mem_cons_of_mem head member)
        simp [Links.putNext_nextOf, liveHead, liveLast, known, Ne.symm known']
      · intro v member inside
        have known : v ≠ next := by
          rintro rfl
          cases ys with
          | nil => cases member
          | cons y ys => exact inside starts
        have known' := away List.mem_cons_self (List.mem_cons_of_mem head member)
        simp [Links.putPrev_prevOf, liveFirst, liveNext, known, Ne.symm known']
    have joint : Joined ((((m.putPrev x head).putNext last next).putPrev next last).putNext head x) last next := by
      constructor <;> simp [Links.putNext_nextOf, Links.putPrev_prevOf, liveNext, liveHead, liveLast, awayHead]
    have opening : Joined ((((m.putPrev x head).putNext last next).putPrev next last).putNext head x) head x := by
      have known := away (List.mem_cons_self) nextCell
      constructor <;> simp [Links.putNext_nextOf, Links.putPrev_prevOf, liveFirst, liveNext, liveHead, known]
    have distinctAll : (head :: (x :: xs ++ ys)).Nodup := by
      rw [List.nodup_cons, List.nodup_append]
      refine ⟨?_, distinct.2, distinctHead.2, ?_⟩
      · intro member
        rcases List.mem_append.mp member with member | member
        · exact away member List.mem_cons_self rfl
        · exact distinctHead.1 member
      · intro a left b right
        exact away left (List.mem_cons_of_mem head right)
    cases ys with
    | nil =>
      obtain rfl : head = next := Option.some.inj starts
      rw [List.append_nil] at distinctAll ⊢
      exact Ring.close distinctAll front rfl ends opening joint
    | cons y ys =>
      obtain rfl : y = next := Option.some.inj starts
      obtain ⟨final, finishes⟩ : ∃ final, (y :: ys).getLast? = some final := ⟨_, List.getLast?_cons⟩
      have finalCell := List.mem_of_getLast? finishes
      have closing := ringHead.seam final (List.getLast?_cons_cons.trans finishes) head rfl
      apply Ring.close distinctAll _ rfl _ opening _
      · exact final
      · apply List.isChain_append.mpr
        refine ⟨front, back, fun b finishing c starting => ?_⟩
        rw [ends] at finishing
        cases finishing
        cases starting
        exact joint
      · rw [List.getLast?_append_cons]
        exact finishes
      · have known : final ≠ head := fun same => distinctHead.1 (same ▸ finalCell)
        have known' := away lastCell (List.mem_cons_of_mem head finalCell)
        have known'' : head ≠ y := fun same => distinctHead.1 (same ▸ List.mem_cons_self)
        constructor
        · simp [Links.putNext_nextOf, liveHead, liveLast, known, Ne.symm known', closing.1]
        · simp [Links.putPrev_prevOf, liveFirst, liveNext, known'', Ne.symm awayFirst, closing.2]
  · have lastIn : last ∈ list :: (x :: xs) ++ head :: ys := List.mem_append_left _ (inList lastCell)
    have nextIn : next ∈ list :: (x :: xs) ++ head :: ys := List.mem_append_right _ nextCell
    exact (((Rewired.refl.putPrev _ (by simp)).putNext _ lastIn).putPrev _ nextIn).putNext _ (by simp)

/-- A walk over what is left of a list. -/
theorem listForEach_rest (ring : Ring m (head :: (pre ++ post))) (starts : (post ++ [head]).head? = some first) :
    listForEach m (some head) (post.length + 1) (some first) = some post := by
  induction post generalizing pre first with
  | nil =>
    obtain rfl : head = first := Option.some.inj starts
    rw [List.length_nil, listForEach, if_pos rfl]
  | cons a post ih =>
    obtain rfl : a = first := Option.some.inj starts
    have apart : a ≠ head := by
      rintro rfl
      exact (List.nodup_cons.mp ring.distinct).1 (by simp)
    obtain ⟨next, step, starts'⟩ := ring.behind starts
    rw [List.length_cons, listForEach, if_neg fun same => apart (Option.some.inj same)]
    have rest := @ih next (pre ++ [a]) (by rw [List.append_assoc]; exact ring) (starts' (by simp))
    simp [step, rest]

theorem listForEach_ring (ring : Ring m (head :: xs)) (pos : Option α) (begins : m.getNext (some head) = some pos) :
    listForEach m (some head) (xs.length + 1) pos = some xs := by
  obtain ⟨first, starts⟩ := concat_starts xs head
  rw [Links.getNext_some, ring.next starts] at begins
  cases begins
  exact @listForEach_rest _ _ _ _ _ [] _ ring starts

section Loop

variable {body : α → Links α → Option (Links α)} {Inv : List α → Links α → Prop}

/-- The loop may delete the entry that it is at, and keeps what the body keeps. -/
theorem listForEachSafeFrom_rule (shape : ∀ {rest m}, Inv rest m → ∃ kept, Ring m (head :: (kept ++ rest)))
    (step : ∀ {a rest m}, Inv (a :: rest) m → ∃ m', body a m = some m' ∧ Inv rest m') {fuel : Nat} {next : α}
    (enough : xs.length < fuel) (inv : Inv xs m) (starts : (xs ++ [head]).head? = some first)
    (follows : xs ≠ [] → (xs.tail ++ [head]).head? = some next) :
    ∃ m', listForEachSafeFrom body (some head) fuel (some first) (some next) m = some m' ∧ Inv [] m' := by
  induction fuel generalizing xs m first next with
  | zero => exact absurd enough (Nat.not_lt_zero _)
  | succ fuel ih =>
    obtain ⟨kept, ring⟩ := shape inv
    cases xs with
    | nil =>
      obtain rfl : head = first := Option.some.inj starts
      refine ⟨m, ?_, inv⟩
      rw [listForEachSafeFrom, if_pos rfl]
    | cons a rest =>
      obtain rfl : a = first := Option.some.inj starts
      have apart : a ≠ head := by
        rintro rfl
        exact (List.nodup_cons.mp ring.distinct).1 (by simp)
      obtain ⟨m', run, inv'⟩ := step inv
      obtain ⟨kept', ring'⟩ := shape inv'
      obtain ⟨after, behind, follows'⟩ := ring'.behind (follows (by simp))
      obtain ⟨m'', rest_, done⟩ := ih (by simpa using enough) inv' (follows (by simp)) follows'
      refine ⟨m'', ?_, done⟩
      rw [listForEachSafeFrom, if_neg fun same => apart (Option.some.inj same)]
      simp [run, behind, rest_]

theorem listForEachSafe_rule (shape : ∀ {rest m}, Inv rest m → ∃ kept, Ring m (head :: (kept ++ rest)))
    (step : ∀ {a rest m}, Inv (a :: rest) m → ∃ m', body a m = some m' ∧ Inv rest m') {fuel : Nat}
    (enough : xs.length < fuel) (ring : Ring m (head :: xs)) (inv : Inv xs m) :
    ∃ m', listForEachSafe body (some head) fuel m = some m' ∧ Inv [] m' := by
  obtain ⟨first, starts⟩ := concat_starts xs head
  obtain ⟨next, behind, follows⟩ := @Ring.behind _ _ [] _ _ _ ring starts
  obtain ⟨m', run, done⟩ := listForEachSafeFrom_rule shape step enough inv starts follows
  refine ⟨m', ?_, done⟩
  simp [listForEachSafe, ring.next starts, behind, run]

end Loop

end Rings

end ImgEditor
