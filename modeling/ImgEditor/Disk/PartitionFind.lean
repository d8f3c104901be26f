import ImgEditor.Core.Structure
import ImgEditor.Disk.Partition

namespace ImgEditor

open Storage CText

inductive Registration where
  | good (dp : DiskPartitions)
  | weak (dp : DiskPartitions)

def register (gd : List DiskPartitions) : Registration → List DiskPartitions
  | .good dp => registerDiskPartitions gd dp
  | .weak dp => registerWeakDiskPartitions gd dp

def registered (calls : List Registration) : List DiskPartitions := calls.foldl register []

def DiskPartitions.HoldsAddr (dp : DiskPartitions) (addr : BitVec 64) : Prop := ∃ part ∈ dp.parts, part.Holds addr

instance (dp : DiskPartitions) (addr : BitVec 64) : Decidable (dp.HoldsAddr addr) :=
  inferInstanceAs (Decidable (∃ part ∈ dp.parts, part.Holds addr))

/-- The partition that is returned has the best score of those that hold the address, and its table has the disk
type that is reported. -/
structure FindRight (gd : List DiskPartitions) (addr : BitVec 64) : Prop where
  found : (findRegistedPartition gd addr).bestPart = none ↔ ∀ dp ∈ gd, ¬ dp.HoldsAddr addr
  best : ∀ cell i, (findRegistedPartition gd addr).bestPart = some (cell, i) →
    ∃ dp part, gd[cell]? = some dp ∧ dp.parts[i]? = some part ∧ part.Holds addr ∧
      (∀ other ∈ gd, other.HoldsAddr addr → other.score ≤ dp.score) ∧
      (findRegistedPartition gd addr).retDiskType = some dp.diskType

/-- The first table of the best score among those that hold the address. -/
structure FirstBest (gd : List DiskPartitions) (addr : BitVec 64) (cell : Nat) (dp : DiskPartitions) : Prop where
  place : gd[cell]? = some dp
  holds : dp.HoldsAddr addr
  best : ∀ (k : Nat) (other : DiskPartitions), gd[k]? = some other → other.HoldsAddr addr → other.score ≤ dp.score
  first : ∀ (k : Nat) (other : DiskPartitions), k < cell → gd[k]? = some other → other.HoldsAddr addr → other.score < dp.score

def holders (gd : List DiskPartitions) (addr : BitVec 64) : List DiskPartitions :=
  gd.filter fun dp => dp.HoldsAddr addr

/-- Where a table holds the address, one with a positive score does, and the last one that does has the type of the
best one. -/
structure FindFits (gd : List DiskPartitions) (addr : BitVec 64) : Prop where
  scored : (∃ dp ∈ gd, dp.HoldsAddr addr) → ∃ dp ∈ gd, dp.HoldsAddr addr ∧ 0 < dp.score
  type : ∀ cell dp last, FirstBest gd addr cell dp → (holders gd addr).getLast? = some last → last.diskType = dp.diskType

section Table

variable {addr : BitVec 64} {cell : Nat} {dp : DiskPartitions}

def findRegistedTable (addr : BitVec 64) (cell : Nat) (dp : DiskPartitions) (search : PartitionSearch) : PartitionSearch :=
  match dp.parts.findIdx? fun part => part.Holds addr with
  | none => search
  | some i =>
    if dp.score > search.bestScore then ⟨some (cell, i), dp.score, some dp.diskType⟩
    else { search with retDiskType := some dp.diskType }

theorem holdsAddr_iff : dp.HoldsAddr addr ↔ ∃ i, (dp.parts.findIdx? fun part => part.Holds addr) = some i := by
  rw [← Option.isSome_iff_exists, List.findIdx?_isSome]
  simp [DiskPartitions.HoldsAddr]

theorem findRegistedStep_kept (parts : List (DiskPartition × Nat)) {search : PartitionSearch}
    (settled : dp.score ≤ search.bestScore) (typed : search.retDiskType = some dp.diskType) :
    parts.foldl (findRegistedStep addr cell dp) search = search := by
  induction parts generalizing search with
  | nil => rfl
  | cons part rest ih =>
    have step : findRegistedStep addr cell dp search part = search := by
      unfold findRegistedStep
      split
      · simp only [if_neg (not_lt.mpr settled), ← typed]
      · rfl
    rw [List.foldl_cons, step, ih settled typed]

theorem findRegisted_inner (parts : List DiskPartition) (n : Nat) (search : PartitionSearch) :
    (parts.zipIdx n).foldl (findRegistedStep addr cell dp) search =
      match parts.findIdx? fun part => part.Holds addr with
      | none => search
      | some i =>
        if dp.score > search.bestScore then ⟨some (cell, n + i), dp.score, some dp.diskType⟩
        else { search with retDiskType := some dp.diskType } := by
  induction parts generalizing n with
  | nil => rfl
  | cons part rest ih =>
    rw [List.zipIdx_cons, List.foldl_cons, List.findIdx?_cons]
    by_cases holds : part.Holds addr
    · have here : decide (part.Holds addr) = true := decide_eq_true holds
      rw [here, findRegistedStep, if_pos holds]
      dsimp only
      split
      · rw [findRegistedStep_kept _ (Int.le_refl _) rfl]
        rfl
      · rename_i worse
        exact findRegistedStep_kept _ (not_lt.mp worse) rfl
    · have other : decide (part.Holds addr) = false := decide_eq_false holds
      rw [other, findRegistedStep, if_neg holds, ih (n + 1)]
      cases rest.findIdx? fun part => part.Holds addr with
      | none => rfl
      | some i => simp [Nat.add_assoc, Nat.add_comm 1]

theorem findRegistedTable_eq (search : PartitionSearch) :
    dp.parts.zipIdx.foldl (findRegistedStep addr cell dp) search = findRegistedTable addr cell dp search := by
  rw [findRegisted_inner, findRegistedTable]
  simp only [Nat.zero_add]

end Table

section Search

variable {gd : List DiskPartitions} {addr : BitVec 64}

theorem findRegistedPartition_snoc (gd : List DiskPartitions) (dp : DiskPartitions) :
    findRegistedPartition (gd ++ [dp]) addr = findRegistedTable addr gd.length dp (findRegistedPartition gd addr) := by
  unfold findRegistedPartition
  rw [List.zipIdx_append, List.foldl_append, List.zipIdx_cons, List.zipIdx_nil, List.foldl_cons, List.foldl_nil,
    Nat.zero_add, findRegistedTable_eq]

structure Searched (gd : List DiskPartitions) (addr : BitVec 64) (search : PartitionSearch) : Prop where
  type : search.retDiskType = (holders gd addr).getLast?.map (·.diskType)
  bounds : ∀ other ∈ gd, other.HoldsAddr addr → other.score ≤ search.bestScore
  unfound : search.bestPart = none → search.bestScore = 0
  chosen : ∀ cell i, search.bestPart = some (cell, i) → ∃ dp, FirstBest gd addr cell dp ∧
    (dp.parts.findIdx? fun part => part.Holds addr) = some i ∧ search.bestScore = dp.score ∧ 0 < dp.score

theorem holders_snoc (gd : List DiskPartitions) (dp : DiskPartitions) :
    holders (gd ++ [dp]) addr = holders gd addr ++ if dp.HoldsAddr addr then [dp] else [] := by
  rw [holders, List.filter_append, ← holders]
  by_cases holds : dp.HoldsAddr addr
  · rw [if_pos holds, List.filter_cons_of_pos (by simpa using holds), List.filter_nil]
  · rw [if_neg holds, List.filter_cons_of_neg (by simpa using holds), List.filter_nil]

/-- A table behind that is no better leaves the first best one. -/
theorem FirstBest.snoc {cell : Nat} {dp last : DiskPartitions} (first : FirstBest gd addr cell dp)
    (worse : last.HoldsAddr addr → last.score ≤ dp.score) : FirstBest (gd ++ [last]) addr cell dp := by
  have inside := (List.getElem?_eq_some_iff.mp first.place).1
  refine ⟨?_, first.holds, ?_, ?_⟩
  · rw [List.getElem?_append_left inside, first.place]
  · intro k other place holds
    by_cases low : k < gd.length
    · rw [List.getElem?_append_left low] at place
      exact first.best k other place holds
    · have same := List.mem_of_getElem? place
      rcases List.mem_append.mp same with _ | member
      · rw [List.getElem?_append_right (Nat.le_of_not_lt low)] at place
        obtain rfl := List.mem_singleton.mp (List.mem_of_getElem? place)
        exact worse holds
      · obtain rfl := List.mem_singleton.mp member
        exact worse holds
  · intro k other low place holds
    rw [List.getElem?_append_left (Nat.lt_trans low inside)] at place
    exact first.first k other low place holds

theorem firstBest_last {dp : DiskPartitions} (holds : dp.HoldsAddr addr)
    (better : ∀ other ∈ gd, other.HoldsAddr addr → other.score < dp.score) :
    FirstBest (gd ++ [dp]) addr gd.length dp := by
  refine ⟨List.getElem?_concat_length, holds, ?_, ?_⟩
  · intro k other place held
    rcases List.mem_append.mp (List.mem_of_getElem? place) with before | last
    · exact Int.le_of_lt (better other before held)
    · rw [List.mem_singleton.mp last]
  · intro k other low place held
    rw [List.getElem?_append_left low] at place
    exact better other (List.mem_of_getElem? place) held

theorem Searched.snoc {search : PartitionSearch} (searched : Searched gd addr search) (dp : DiskPartitions) :
    Searched (gd ++ [dp]) addr (findRegistedTable addr gd.length dp search) := by
  have indexed : dp.HoldsAddr addr ↔ ∃ i, (dp.parts.findIdx? fun part => part.Holds addr) = some i := holdsAddr_iff
  unfold findRegistedTable
  cases found : dp.parts.findIdx? fun part => part.Holds addr with
  | none =>
    have misses : ¬ dp.HoldsAddr addr := by
      rw [indexed, found]
      exact fun ⟨_, same⟩ => nomatch same
    refine ⟨?_, ?_, searched.unfound, fun cell i best => ?_⟩
    · rw [holders_snoc, if_neg misses, List.append_nil, searched.type]
    · intro other member holds
      rcases List.mem_append.mp member with before | last
      · exact searched.bounds other before holds
      · rw [List.mem_singleton.mp last] at holds
        exact absurd holds misses
    · obtain ⟨own, first, rest⟩ := searched.chosen cell i best
      exact ⟨own, first.snoc fun holds => absurd holds misses, rest⟩
  | some j =>
    have holds : dp.HoldsAddr addr := indexed.mpr ⟨j, found⟩
    have last : (holders (gd ++ [dp]) addr).getLast?.map (·.diskType) = some dp.diskType := by
      rw [holders_snoc, if_pos holds, List.getLast?_concat]
      rfl
    dsimp only
    split
    · rename_i better
      have positive : 0 < dp.score := by
        cases best : search.bestPart with
        | none => rw [← searched.unfound best]; exact better
        | some place =>
          obtain ⟨own, _, _, score, positive⟩ := searched.chosen place.1 place.2 best
          omega
      refine ⟨last.symm, ?_, nofun, fun cell i best => ?_⟩
      · intro other member held
        rcases List.mem_append.mp member with before | same
        · exact Int.le_of_lt (Int.lt_of_le_of_lt (searched.bounds other before held) better)
        · rw [List.mem_singleton.mp same]
      · obtain ⟨rfl, rfl⟩ := Prod.mk.inj (Option.some.inj best)
        refine ⟨dp, firstBest_last holds ?_, found, rfl, positive⟩
        exact fun other before held => Int.lt_of_le_of_lt (searched.bounds other before held) better
    · rename_i worse
      refine ⟨last.symm, ?_, searched.unfound, fun cell i best => ?_⟩
      · intro other member held
        rcases List.mem_append.mp member with before | same
        · exact searched.bounds other before held
        · rw [List.mem_singleton.mp same]
          exact Int.not_lt.mp worse
      · obtain ⟨own, first, index, score, positive⟩ := searched.chosen cell i best
        refine ⟨own, first.snoc fun _ => ?_, index, score, positive⟩
        rw [← score]
        exact Int.not_lt.mp worse

theorem findRegistedPartition_searched (gd : List DiskPartitions) (addr : BitVec 64) :
    Searched gd addr (findRegistedPartition gd addr) := by
  induction gd using List.reverseRecOn with
  | nil => exact ⟨rfl, nofun, fun _ => rfl, nofun⟩
  | append_singleton gd dp ih =>
    rw [findRegistedPartition_snoc]
    exact ih.snoc dp

theorem FirstBest.unique {cell k : Nat} {dp other : DiskPartitions} (best : FirstBest gd addr cell dp)
    (again : FirstBest gd addr k other) : dp = other := by
  rcases Nat.lt_trichotomy cell k with low | same | high
  · have less := again.first cell dp low best.place best.holds
    have most := best.best k other again.place again.holds
    omega
  · rw [same] at best
    exact Option.some.inj (best.place.symm.trans again.place)
  · have less := best.first k other high again.place again.holds
    have most := again.best cell dp best.place best.holds
    omega

/-- The search is right exactly when the scores are positive and the last table that holds the address has the type of
the best one. -/
theorem findRight_iff (gd : List DiskPartitions) (addr : BitVec 64) : FindRight gd addr ↔ FindFits gd addr := by
  have searched := findRegistedPartition_searched gd addr
  cases result : (findRegistedPartition gd addr).bestPart with
  | none =>
    have low := searched.unfound result
    constructor
    · intro right
      have misses := right.found.mp result
      refine ⟨fun ⟨dp, member, holds⟩ => absurd holds (misses dp member), fun cell dp last best _ => ?_⟩
      exact absurd best.holds (misses dp (List.mem_of_getElem? best.place))
    · intro fits
      have misses : ∀ dp ∈ gd, ¬ dp.HoldsAddr addr := by
        intro dp member holds
        obtain ⟨other, inside, held, positive⟩ := fits.scored ⟨dp, member, holds⟩
        have bound := searched.bounds other inside held
        omega
      exact ⟨iff_of_true result misses, fun cell i best => nomatch result.symm.trans best⟩
  | some place =>
    obtain ⟨dp, first, index, score, positive⟩ := searched.chosen place.1 place.2 result
    have member := List.mem_of_getElem? first.place
    have kept : dp ∈ holders gd addr := List.mem_filter.mpr ⟨member, decide_eq_true first.holds⟩
    obtain ⟨last, ends⟩ : ∃ last, (holders gd addr).getLast? = some last :=
      ⟨_, List.getLast?_eq_some_getLast (List.ne_nil_of_mem kept)⟩
    have type : (findRegistedPartition gd addr).retDiskType = some last.diskType := by rw [searched.type, ends]; rfl
    constructor
    · intro right
      obtain ⟨own, part, placed, _, _, _, reported⟩ := right.best place.1 place.2 result
      rw [first.place] at placed
      obtain rfl := Option.some.inj placed
      refine ⟨fun _ => ⟨dp, member, first.holds, positive⟩, fun cell other again best ending => ?_⟩
      rw [ends] at ending
      obtain rfl := Option.some.inj ending
      rw [← first.unique best]
      exact Option.some.inj (type.symm.trans reported)
    · intro fits
      refine ⟨iff_of_false (by rw [result]; exact nofun) fun misses => misses dp member first.holds, fun cell i best => ?_⟩
      obtain rfl := Option.some.inj (result.symm.trans best)
      obtain ⟨inside, holds, _⟩ := List.findIdx?_eq_some_iff_getElem.mp index
      refine ⟨dp, dp.parts[i], first.place, List.getElem?_eq_getElem inside, of_decide_eq_true holds, ?_, ?_⟩
      · intro other inside held
        obtain ⟨k, placed⟩ := List.mem_iff_getElem?.mp inside
        exact first.best k other placed held
      · rw [type, fits.type cell dp last first ends]

end Search

/-- The search among the tables of any registrations. -/
theorem findRegistedPartition_right_iff (calls : List Registration) (addr : BitVec 64) :
    FindRight (registered calls) addr ↔ FindFits (registered calls) addr :=
  findRight_iff (registered calls) addr

def wholeTable (diskType : String) : DiskPartitions := ⟨cstr diskType, 0, [⟨[], 0, 1023⟩]⟩

/-- The partition of a good table is returned, with the type of the weak table behind it. -/
theorem findRegistedPartition_weak :
    ¬ FindRight (registered [.good (wholeTable "GPT"), .weak (wholeTable "MBR")]) 512 := by
  intro right
  obtain ⟨dp, part, placed, _, _, _, type⟩ := right.best 0 0 (by decide +kernel)
  have first : (registered [.good (wholeTable "GPT"), .weak (wholeTable "MBR")])[0]? =
    some { wholeTable "GPT" with score := 80 } := rfl
  rw [first] at placed
  obtain rfl := Option.some.inj placed
  revert type
  decide +kernel

end ImgEditor
