import ImgEditor.Fs.UbiDent
import ImgEditor.Fs.UbiFind
import Mathlib.Data.List.Nodup

namespace ImgEditor

open KeySearch

def UbiLeafNode.hash (leaf : UbiLeafNode) : Nat := leaf.keyNat % 2^29

def keyLeafs (root : UbiBranch) (keytype : BitVec 8) (ino : BitVec 32) : List UbiLeafNode :=
  root.leafs.filter fun leaf => decide (leaf.keyNat / 2^29 = ino.toNat * 8 + keytype.toNat % 8)

def dirLeafs (root : UbiBranch) (ino : BitVec 32) : List UbiLeafNode := keyLeafs root UBIFS_DENT_KEY ino

structure DentIndex (root : UbiBranch) : Prop where
  uniform : ∃ depth, root.Uniform depth
  nonEmpty : root.NonEmpty
  separated : root.Separated
  sorted : Sorted UbiLeafNode.keyNat root.leafs

def dirOf (p : UbiVolume) (leaf : UbiLeafNode) : Option (BitVec 32) :=
  match readDent p leaf with
  | some ⟨inum, .dir⟩ => some inum
  | _ => none

/-- The leaves at and below a list of entries, depth first. -/
inductive DentsBelow (p : UbiVolume) : List UbiLeafNode → List UbiLeafNode → Prop where
  | nil : DentsBelow p [] []
  | entry {leaf rest others} (other : dirOf p leaf = none) (next : DentsBelow p rest others) :
      DentsBelow p (leaf :: rest) (leaf :: others)
  | dir {leaf inum rest below others} (inode : dirOf p leaf = some inum)
      (inside : DentsBelow p (dirLeafs p.root inum) below) (next : DentsBelow p rest others) :
      DentsBelow p (leaf :: rest) (leaf :: below ++ others)

/-- The directory entries form a finite tree with these leaves: no directory has two entries, and
none is the root. -/
structure DentTree (p : UbiVolume) (leafs : List UbiLeafNode) : Prop where
  below : DentsBelow p (dirLeafs p.root 1) leafs
  once : (1 :: leafs.filterMap (dirOf p)).Nodup

theorem makeU64_toNat (msb lsb : BitVec 32) : (makeU64 msb lsb).toNat = msb.toNat * 2^32 + lsb.toNat := by
  have high := msb.isLt
  have low := lsb.isLt
  have wide : (2:Nat)^32 < 2^64 := by decide
  have shifted : msb.toNat * 2^32 < 2^64 := by
    have scaled := Nat.mul_lt_mul_of_pos_right high (Nat.two_pow_pos 32)
    rwa [← Nat.pow_add] at scaled
  simp only [makeU64, BitVec.toNat_or, BitVec.toNat_shiftLeft, BitVec.truncate_eq_setWidth, BitVec.toNat_setWidth,
    Nat.shiftLeft_eq]
  rw [Nat.mod_eq_of_lt (low.trans wide), Nat.mod_eq_of_lt (high.trans wide), Nat.mod_eq_of_lt shifted,
    shiftLeft_or _ _ low]

theorem UbiLeafNode.keyNat_eq (leaf : UbiLeafNode) : leaf.keyNat = leaf.key0.toNat * 2^32 + leaf.key1.toNat :=
  makeU64_toNat leaf.key0 leaf.key1

theorem UbiLeafNode.hash_eq (leaf : UbiLeafNode) : leaf.hash = leaf.key1.toNat % 2^29 := by
  rw [hash, keyNat_eq]
  omega

theorem blockMask_toNat (key1 : BitVec 32) : (key1 &&& UBIFS_S_KEY_BLOCK_MASK).toNat = key1.toNat % 2^29 := by
  rw [BitVec.toNat_and]
  exact Nat.and_two_pow_sub_one_eq_mod _ 29

theorem nextHashMin_toNat (leaf : UbiLeafNode) :
    (nextHashMin leaf).toNat = if leaf.hash = 2^29 - 1 then 2^29 - 1 else leaf.hash + 1 := by
  have last : leaf.key1 &&& UBIFS_S_KEY_BLOCK_MASK = UBIFS_S_KEY_BLOCK_MASK ↔ leaf.hash = 2^29 - 1 := by
    rw [← BitVec.toNat_inj, blockMask_toNat, leaf.hash_eq]
    rfl
  unfold nextHashMin
  by_cases top : leaf.hash = 2^29 - 1
  · rw [if_pos (last.mpr top), if_pos top]
    rfl
  · rw [if_neg (mt last.mp top), if_neg top, blockMask_toNat, BitVec.toNat_add]
    rw [leaf.hash_eq] at top ⊢
    have one : (1 : BitVec 32).toNat = 1 := rfl
    omega

section Loop

variable {p : UbiVolume} {ops : DentOps}

theorem mem_keyLeafs {root : UbiBranch} {keytype : BitVec 8} {ino : BitVec 32} {leaf : UbiLeafNode} :
    leaf ∈ keyLeafs root keytype ino ↔
      leaf ∈ root.leafs ∧ leaf.keyNat / 2^29 = ino.toNat * 8 + keytype.toNat % 8 := by
  simp [keyLeafs]

theorem mem_dirLeafs {root : UbiBranch} {ino : BitVec 32} {leaf : UbiLeafNode} :
    leaf ∈ dirLeafs root ino ↔ leaf ∈ root.leafs ∧ leaf.keyNat / 2^29 = ino.toNat * 8 + 2 :=
  mem_keyLeafs

theorem findFrom {root : UbiBranch} (index : DentIndex root) (keytype : BitVec 8) (ino hashMin : BitVec 32) :
    FirstInside UbiLeafNode.hash (hashMin.toNat % 2^29) (2^29 - 1) (keyLeafs root keytype ino)
      (ubiBptreeFind root keytype ino hashMin 0xffffffff) := by
  obtain ⟨⟨depth, uniform⟩, nonEmpty, separated, sorted⟩ := index
  have answered := ubiBptreeFindKeys_first (ubiLeafMakeKey_sameGroup keytype ino hashMin 0xffffffff)
    root depth uniform nonEmpty separated sorted
  have top : (0xffffffff : BitVec 32).toNat % 2^29 = 2^29 - 1 := rfl
  simp only [ubiLeafMakeKey_toNat, top] at answered
  have inside (leaf : UbiLeafNode) :
      Inside UbiLeafNode.keyNat (ino.toNat * 2^32 + (keytype.toNat % 8 * 2^29 + hashMin.toNat % 2^29))
          (ino.toNat * 2^32 + (keytype.toNat % 8 * 2^29 + (2^29 - 1))) leaf ↔
        leaf.keyNat / 2^29 = ino.toNat * 8 + keytype.toNat % 8 ∧
          Inside UbiLeafNode.hash (hashMin.toNat % 2^29) (2^29 - 1) leaf := by
    simp only [Inside, UbiLeafNode.hash]
    omega
  unfold ubiBptreeFind
  generalize ubiBptreeFindKeys _ _ root = answer at answered ⊢
  cases answer with
  | none =>
    intro leaf member within
    obtain ⟨member, group⟩ := mem_keyLeafs.mp member
    exact answered leaf member ((inside leaf).mpr ⟨group, within⟩)
  | some leaf =>
    obtain ⟨member, within, least⟩ := answered
    obtain ⟨group, within⟩ := (inside leaf).mp within
    refine ⟨mem_keyLeafs.mpr ⟨member, group⟩, within, ?_⟩
    intro other otherMember otherWithin
    obtain ⟨otherMember, otherGroup⟩ := mem_keyLeafs.mp otherMember
    have least := least other otherMember ((inside other).mpr ⟨otherGroup, otherWithin⟩)
    simp only [UbiLeafNode.hash]
    omega

theorem findDent {root : UbiBranch} (index : DentIndex root) (ino hashMin : BitVec 32) :
    FirstInside UbiLeafNode.hash (hashMin.toNat % 2^29) (2^29 - 1) (dirLeafs root ino)
      (ubiBptreeFind root UBIFS_DENT_KEY ino hashMin 0xffffffff) :=
  findFrom index UBIFS_DENT_KEY ino hashMin

def DentOps.Stable (ops : DentOps) : Prop :=
  ∀ fuel more dent ret, ops.entry fuel dent = some ret → ops.entry (fuel + more) dent = some ret

/-- One round of the loop that goes on: `below` is what the entry itself contributes. -/
def EntryRun (p : UbiVolume) (ops : DentOps) (fuel : Nat) (dent : UbifsDent) (below : List UbiLeafNode)
    (ret : Int) : Prop :=
  (dent.itype = .dir → ops.enter dent = true ∧ dentLoop p ops fuel dent.inum 0 = some (below, ret)) ∧
    (dent.itype ≠ .dir → below = [] ∧ ops.entry fuel dent = some ret)

theorem dentLoop_done {fuel : Nat} {ino hashMin : BitVec 32} {visits : List UbiLeafNode} {ret : Int}
    (done : dentLoop p ops fuel ino hashMin = some (visits, ret)) (success : 0 ≤ ret) :
    ∃ less, fuel = less + 1 ∧
      ((ubiBptreeFind p.root UBIFS_DENT_KEY ino hashMin 0xffffffff = none ∧ visits = [] ∧ ret = 0) ∨
        ∃ leaf dent below r rest,
          ubiBptreeFind p.root UBIFS_DENT_KEY ino hashMin 0xffffffff = some leaf ∧
            readDent p leaf = some dent ∧ EntryRun p ops less dent below r ∧ 0 ≤ r ∧
            dentLoop p ops less ino (nextHashMin leaf) = some (rest, ret) ∧ visits = leaf :: below ++ rest) := by
  cases fuel with
  | zero => simp [dentLoop] at done
  | succ less =>
    refine ⟨less, rfl, ?_⟩
    simp only [dentLoop] at done
    cases search : ubiBptreeFind p.root UBIFS_DENT_KEY ino hashMin 0xffffffff with
    | none =>
      simp only [search, Option.some.injEq, Prod.mk.injEq] at done
      exact Or.inl ⟨rfl, done.1.symm, done.2.symm⟩
    | some leaf =>
      simp only [search] at done
      cases read : readDent p leaf with
      | none =>
        simp only [read, Option.some.injEq, Prod.mk.injEq] at done
        omega
      | some dent =>
        simp only [read] at done
        rcases own : (if dent.itype = .dir then
            if ops.enter dent then dentLoop p ops less dent.inum 0 else some ([], -1)
          else (ops.entry less dent).map fun ret => ([], ret)) with _ | ⟨below, r⟩
        · simp only [own, reduceCtorEq] at done
        simp only [own] at done
        by_cases failed : r < 0
        · simp only [if_pos failed, Option.some.injEq, Prod.mk.injEq] at done
          omega
        simp only [if_neg failed] at done
        rcases loop : dentLoop p ops less ino (nextHashMin leaf) with _ | ⟨rest, r'⟩
        · simp only [loop, reduceCtorEq] at done
        simp only [loop, Option.some.injEq, Prod.mk.injEq] at done
        obtain ⟨visited, rfl⟩ := done
        refine Or.inr ⟨leaf, dent, below, r, rest, rfl, read, ⟨?_, ?_⟩, not_lt.mp failed, loop, visited.symm⟩
        · intro directory
          rw [if_pos directory] at own
          cases enter : ops.enter dent with
          | true => exact ⟨rfl, by simpa [enter] using own⟩
          | false =>
            simp only [enter, Bool.false_eq_true, if_false, Option.some.injEq, Prod.mk.injEq] at own
            omega
        · intro other
          rw [if_neg other, Option.map_eq_some_iff] at own
          obtain ⟨r', entry, same⟩ := own
          obtain ⟨rfl, rfl⟩ := Prod.mk.inj same
          exact ⟨rfl, entry⟩

theorem dentLoop_go {fuel : Nat} {ino hashMin : BitVec 32} {leaf : UbiLeafNode} {dent : UbifsDent}
    {below rest : List UbiLeafNode} {r ret : Int}
    (search : ubiBptreeFind p.root UBIFS_DENT_KEY ino hashMin 0xffffffff = some leaf)
    (read : readDent p leaf = some dent) (own : EntryRun p ops fuel dent below r) (success : 0 ≤ r)
    (loop : dentLoop p ops fuel ino (nextHashMin leaf) = some (rest, ret)) :
    dentLoop p ops (fuel + 1) ino hashMin = some (leaf :: below ++ rest, ret) := by
  have entry : (if dent.itype = .dir then
        if ops.enter dent then dentLoop p ops fuel dent.inum 0 else some ([], -1)
      else (ops.entry fuel dent).map fun ret => ([], ret)) = some (below, r) := by
    by_cases directory : dent.itype = .dir
    · obtain ⟨enter, inside⟩ := own.1 directory
      rw [if_pos directory, if_pos enter, inside]
    · obtain ⟨rfl, ended⟩ := own.2 directory
      rw [if_neg directory, ended]
      rfl
  simp only [dentLoop, search, read, entry, if_neg (not_lt.mpr success), loop]

theorem dentLoop_more (stable : ops.Stable) {fuel : Nat} {ino hashMin : BitVec 32} {visits : List UbiLeafNode}
    {ret : Int} (done : dentLoop p ops fuel ino hashMin = some (visits, ret)) (success : 0 ≤ ret) (more : Nat) :
    dentLoop p ops (fuel + more) ino hashMin = some (visits, ret) := by
  induction fuel generalizing ino hashMin visits ret with
  | zero => simp [dentLoop] at done
  | succ fuel ih =>
    obtain ⟨less, same, ended | ⟨leaf, dent, below, r, rest, search, read, own, went, loop, rfl⟩⟩ :=
      dentLoop_done done success
    · obtain ⟨search, rfl, rfl⟩ := ended
      rw [Nat.add_right_comm]
      simp only [dentLoop, search]
    · obtain rfl : fuel = less := by omega
      rw [Nat.add_right_comm]
      refine dentLoop_go search read ⟨?_, ?_⟩ went (ih loop success)
      · intro directory
        obtain ⟨enter, inside⟩ := own.1 directory
        exact ⟨enter, ih inside went⟩
      · intro other
        obtain ⟨empty, ended⟩ := own.2 other
        exact ⟨empty, stable fuel more dent r ended⟩

def EntryDone (p : UbiVolume) (ops : DentOps) (leaf : UbiLeafNode) : Prop :=
  ∃ dent, readDent p leaf = some dent ∧ (dent.itype = .dir → ops.enter dent = true) ∧
    (dent.itype ≠ .dir → ∃ fuel ret, ops.entry fuel dent = some ret ∧ 0 ≤ ret)

theorem dirOf_eq_some {leaf : UbiLeafNode} {dent : UbifsDent} (read : readDent p leaf = some dent)
    (directory : dent.itype = .dir) : dirOf p leaf = some dent.inum := by
  obtain ⟨inum, itype⟩ := dent
  obtain rfl : itype = .dir := directory
  simp [dirOf, read]

theorem dirOf_eq_none {leaf : UbiLeafNode} {dent : UbifsDent} (read : readDent p leaf = some dent)
    (other : dent.itype ≠ .dir) : dirOf p leaf = none := by
  obtain ⟨inum, itype⟩ := dent
  cases itype <;> first | exact absurd rfl other | simp [dirOf, read]

theorem DentsBelow.sublist {entries leafs : List UbiLeafNode} (tree : DentsBelow p entries leafs) :
    entries.Sublist leafs := by
  induction tree with
  | nil => exact List.Sublist.refl []
  | entry _ _ ih => exact ih.cons_cons _
  | dir _ _ _ _ ih => exact (ih.trans (List.sublist_append_right _ _)).cons_cons _

theorem DentIndex.key_sorted {root : UbiBranch} (index : DentIndex root) (keytype : BitVec 8) (ino : BitVec 32) :
    Sorted UbiLeafNode.keyNat (keyLeafs root keytype ino) :=
  List.Pairwise.sublist List.filter_sublist index.sorted

theorem hash_lt {root : UbiBranch} (index : DentIndex root) {keytype : BitVec 8} {ino : BitVec 32}
    {before rest : List UbiLeafNode} {leaf : UbiLeafNode} (split : keyLeafs root keytype ino = before ++ leaf :: rest)
    (keys : ((leaf :: rest).map UbiLeafNode.keyNat).Nodup) : ∀ other ∈ rest, leaf.hash < other.hash := by
  intro other member
  have sorted := index.key_sorted keytype ino
  rw [split] at sorted
  have least := (List.pairwise_cons.mp (List.pairwise_append.mp sorted).2.1).1 other member
  have differ : leaf.keyNat ≠ other.keyNat := by
    intro same
    rw [List.map_cons, List.nodup_cons] at keys
    apply keys.1
    rw [same]
    exact List.mem_map_of_mem member
  have leafMember : leaf ∈ keyLeafs root keytype ino := by
    rw [split]
    simp
  have otherMember : other ∈ keyLeafs root keytype ino := by
    rw [split]
    simp [member]
  obtain ⟨_, leafGroup⟩ := mem_keyLeafs.mp leafMember
  obtain ⟨_, otherGroup⟩ := mem_keyLeafs.mp otherMember
  simp only [UbiLeafNode.hash]
  omega

section Rest

variable {keytype : BitVec 8} {ino hashMin : BitVec 32} {before rest : List UbiLeafNode} {leaf : UbiLeafNode}

theorem findFrom_none (index : DentIndex p.root)
    (passed : ∀ leaf ∈ keyLeafs p.root keytype ino, leaf.hash < hashMin.toNat % 2^29) :
    ubiBptreeFind p.root keytype ino hashMin 0xffffffff = none := by
  have answered := findFrom index keytype ino hashMin
  cases search : ubiBptreeFind p.root keytype ino hashMin 0xffffffff with
  | none => rfl
  | some leaf =>
    rw [search] at answered
    obtain ⟨member, within, _⟩ := answered
    exact absurd within.1 (not_le.mpr (passed leaf member))

theorem findFrom_next (index : DentIndex p.root) (split : keyLeafs p.root keytype ino = before ++ leaf :: rest)
    (keys : ((leaf :: rest).map UbiLeafNode.keyNat).Nodup)
    (passed : ∀ leaf ∈ before, leaf.hash < hashMin.toNat % 2^29) (ahead : hashMin.toNat % 2^29 ≤ leaf.hash) :
    ubiBptreeFind p.root keytype ino hashMin 0xffffffff = some leaf := by
  have answered := findFrom index keytype ino hashMin
  have member : leaf ∈ keyLeafs p.root keytype ino := by rw [split]; simp
  have bound : leaf.hash < 2^29 := Nat.mod_lt _ (by decide)
  have within : Inside UbiLeafNode.hash (hashMin.toNat % 2^29) (2^29 - 1) leaf := ⟨ahead, by omega⟩
  cases search : ubiBptreeFind p.root keytype ino hashMin 0xffffffff with
  | none =>
    rw [search] at answered
    exact absurd within (answered leaf member)
  | some found =>
    rw [search] at answered
    obtain ⟨foundMember, foundWithin, least⟩ := answered
    have first := least leaf member within
    rw [split] at foundMember
    rcases List.mem_append.mp foundMember with early | late
    · exact absurd foundWithin.1 (not_le.mpr (passed found early))
    · rcases List.mem_cons.mp late with same | later
      · rw [same]
      · exact absurd first (not_le.mpr (hash_lt index split keys found later))

end Rest

theorem nextHashMin_between {root : UbiBranch} (index : DentIndex root) {keytype : BitVec 8}
    {ino : BitVec 32} {before rest : List UbiLeafNode} {leaf : UbiLeafNode}
    (split : keyLeafs root keytype ino = before ++ leaf :: rest)
    (keys : ((leaf :: rest).map UbiLeafNode.keyNat).Nodup) (last : leaf.hash ≠ 2^29 - 1) {low : Nat}
    (passed : ∀ leaf ∈ before, leaf.hash < low) (ahead : low ≤ leaf.hash) :
    (∀ other ∈ before ++ [leaf], other.hash < (nextHashMin leaf).toNat % 2^29) ∧
      ∀ other ∈ rest, (nextHashMin leaf).toNat % 2^29 ≤ other.hash := by
  have bound : leaf.hash < 2^29 := Nat.mod_lt _ (by decide)
  have next : (nextHashMin leaf).toNat % 2^29 = leaf.hash + 1 := by
    rw [nextHashMin_toNat, if_neg last]
    omega
  rw [next]
  constructor
  · intro other member
    rcases List.mem_append.mp member with early | here
    · exact Nat.lt_succ_of_le ((passed other early).le.trans ahead)
    · rw [List.mem_singleton.mp here]
      exact Nat.lt_succ_self _
  · exact fun other member => hash_lt index split keys other member

/-- Where keys differ and no hash is the last one, the loop goes through the rest of a directory. -/
theorem dentLoop_visits (index : DentIndex p.root) (stable : ops.Stable) {rest leafs : List UbiLeafNode}
    (tree : DentsBelow p rest leafs) (keys : (leafs.map UbiLeafNode.keyNat).Nodup)
    (fine : ∀ leaf ∈ leafs, EntryDone p ops leaf ∧ leaf.hash ≠ 2^29 - 1)
    (ino hashMin : BitVec 32) (before : List UbiLeafNode) (split : dirLeafs p.root ino = before ++ rest)
    (passed : ∀ leaf ∈ before, leaf.hash < hashMin.toNat % 2^29)
    (ahead : ∀ leaf ∈ rest, hashMin.toNat % 2^29 ≤ leaf.hash) :
    ∃ fuel, dentLoop p ops fuel ino hashMin = some (leafs, 0) := by
  induction tree generalizing ino hashMin before with
  | nil =>
    have passedAll : ∀ leaf ∈ dirLeafs p.root ino, leaf.hash < hashMin.toNat % 2^29 := by simpa [split] using passed
    have search : ubiBptreeFind p.root UBIFS_DENT_KEY ino hashMin 0xffffffff = none := findFrom_none index passedAll
    exact ⟨1, by simp only [dentLoop, search]⟩
  | @entry leaf rest others other next ih =>
    have headKeys := keys.sublist ((next.sublist.cons_cons leaf).map UbiLeafNode.keyNat)
    have here := ahead leaf List.mem_cons_self
    have search := findFrom_next index split headKeys passed here
    obtain ⟨⟨dent, read, _, own⟩, last⟩ := fine leaf List.mem_cons_self
    have plain : dent.itype ≠ .dir := by
      intro directory
      rw [dirOf_eq_some read directory] at other
      exact absurd other (by simp)
    obtain ⟨fuel, r, ended, went⟩ := own plain
    obtain ⟨passedNext, aheadNext⟩ := nextHashMin_between index split headKeys last passed here
    obtain ⟨more, loop⟩ := ih (List.nodup_cons.mp keys).2 (fun leaf member => fine leaf (List.mem_cons_of_mem _ member))
      ino (nextHashMin leaf) (before ++ [leaf]) (by simp [split]) passedNext aheadNext
    have run : EntryRun p ops (fuel + more) dent [] r :=
      ⟨fun directory => absurd directory plain, fun _ => ⟨rfl, stable fuel more dent r ended⟩⟩
    have loopMore := dentLoop_more stable loop (le_refl 0) fuel
    rw [Nat.add_comm more fuel] at loopMore
    exact ⟨fuel + more + 1, dentLoop_go search read run went loopMore⟩
  | @dir leaf inum rest below others inode inside next ihInside ih =>
    have restSublist := (next.sublist.trans (List.sublist_append_right below others)).cons_cons leaf
    have headKeys := keys.sublist (restSublist.map UbiLeafNode.keyNat)
    have here := ahead leaf List.mem_cons_self
    have search := findFrom_next index split headKeys passed here
    obtain ⟨⟨dent, read, enter, _⟩, last⟩ := fine leaf List.mem_cons_self
    have directory : dent.itype = .dir := by
      by_contra plain
      rw [dirOf_eq_none read plain] at inode
      exact absurd inode (by simp)
    have same : dent.inum = inum := by
      rw [dirOf_eq_some read directory] at inode
      exact Option.some.inj inode
    obtain ⟨passedNext, aheadNext⟩ := nextHashMin_between index split headKeys last passed here
    have belowKeys := keys.sublist (((List.sublist_append_left below others).cons leaf).map UbiLeafNode.keyNat)
    have othersKeys := keys.sublist (((List.sublist_append_right below others).cons leaf).map UbiLeafNode.keyNat)
    obtain ⟨fuel, entered⟩ := ihInside belowKeys
      (fun leaf member => fine leaf (List.mem_cons_of_mem _ (List.mem_append_left _ member)))
      inum 0 [] rfl (fun _ member => absurd member List.not_mem_nil) (fun _ _ => Nat.zero_le _)
    obtain ⟨more, loop⟩ := ih othersKeys
      (fun leaf member => fine leaf (List.mem_cons_of_mem _ (List.mem_append_right _ member)))
      ino (nextHashMin leaf) (before ++ [leaf]) (by simp [split]) passedNext aheadNext
    have run : EntryRun p ops (fuel + more) dent below 0 := by
      refine ⟨fun _ => ⟨enter directory, ?_⟩, fun plain => absurd directory plain⟩
      rw [same]
      exact dentLoop_more stable entered (le_refl 0) more
    have loopMore := dentLoop_more stable loop (le_refl 0) fuel
    rw [Nat.add_comm more fuel] at loopMore
    exact ⟨fuel + more + 1, dentLoop_go search read run (le_refl 0) loopMore⟩

/-- From the last hash on, a directory that has an entry there is never left well. -/
theorem dentLoop_stuck (index : DentIndex p.root) {fuel : Nat} {ino hashMin : BitVec 32}
    {visits : List UbiLeafNode} {ret : Int} (top : hashMin.toNat % 2^29 = 2^29 - 1)
    {leaf : UbiLeafNode} (member : leaf ∈ dirLeafs p.root ino) (last : leaf.hash = 2^29 - 1)
    (done : dentLoop p ops fuel ino hashMin = some (visits, ret)) : ret < 0 := by
  by_contra success
  induction fuel generalizing hashMin visits with
  | zero => simp [dentLoop] at done
  | succ fuel ih =>
    have answered := findDent index ino hashMin
    obtain ⟨less, same, ⟨search, _⟩ | ⟨found, _, _, _, _, search, _, _, _, loop, _⟩⟩ :=
      dentLoop_done done (not_lt.mp success)
    · rw [search] at answered
      exact answered leaf member ⟨by omega, by omega⟩
    · rw [search] at answered
      obtain ⟨_, ⟨least, _⟩, _⟩ := answered
      have bound : found.hash < 2^29 := Nat.mod_lt _ (by decide)
      have again : (nextHashMin found).toNat % 2^29 = 2^29 - 1 := by
        rw [nextHashMin_toNat, if_pos (by omega)]
        rfl
      obtain rfl : fuel = less := by omega
      exact ih again loop

theorem dentLoop_notLast (index : DentIndex p.root) {fuel : Nat} {ino : BitVec 32} {visits : List UbiLeafNode}
    {ret : Int} {found : UbiLeafNode} (member : found ∈ dirLeafs p.root ino)
    (loop : dentLoop p ops fuel ino (nextHashMin found) = some (visits, ret)) (success : 0 ≤ ret) :
    found.hash ≠ 2^29 - 1 := by
  intro last
  have top : (nextHashMin found).toNat % 2^29 = 2^29 - 1 := by
    rw [nextHashMin_toNat, if_pos last]
    rfl
  exact absurd (dentLoop_stuck index top member last loop) (not_lt.mpr success)

theorem dentLoop_fine (index : DentIndex p.root) {fuel : Nat} {ino hashMin : BitVec 32}
    {visits : List UbiLeafNode} {ret : Int} (done : dentLoop p ops fuel ino hashMin = some (visits, ret))
    (success : 0 ≤ ret) : ∀ leaf ∈ visits,
      (EntryDone p ops leaf ∧ leaf.hash ≠ 2^29 - 1) ∧ ∃ dir, leaf ∈ dirLeafs p.root dir := by
  induction fuel generalizing ino hashMin visits ret with
  | zero => simp [dentLoop] at done
  | succ fuel ih =>
    have answered := findDent index ino hashMin
    obtain ⟨less, same, ⟨_, rfl, _⟩ | ⟨found, dent, below, r, rest, search, read, run, went, loop, rfl⟩⟩ :=
      dentLoop_done done success
    · exact fun _ member => absurd member List.not_mem_nil
    obtain rfl : fuel = less := by omega
    rw [search] at answered
    have own : EntryDone p ops found :=
      ⟨dent, read, fun directory => (run.1 directory).1, fun plain => ⟨fuel, r, (run.2 plain).2, went⟩⟩
    have notLast := dentLoop_notLast index answered.1 loop success
    intro leaf member
    rcases List.mem_append.mp member with member | member
    · rcases List.mem_cons.mp member with rfl | member
      · exact ⟨⟨own, notLast⟩, ino, answered.1⟩
      · by_cases directory : dent.itype = .dir
        · exact ih (run.1 directory).2 went leaf member
        · rw [(run.2 directory).1] at member
          exact absurd member List.not_mem_nil
    · exact ih loop success leaf member

theorem count_filterMap_cons {α β : Type} [DecidableEq β] (f : α → Option β) (head : α) (tail : List α) (b : β) :
    ((head :: tail).filterMap f).count b = (if f head = some b then 1 else 0) + (tail.filterMap f).count b := by
  cases image : f head with
  | none => simp [image]
  | some c =>
    rw [List.filterMap_cons, image]
    simp [List.count_cons, Nat.add_comm]

theorem dentLoop_count (index : DentIndex p.root) (dir : BitVec 32) (h : Nat) {fuel : Nat}
    {ino hashMin : BitVec 32} {visits : List UbiLeafNode} {ret : Int}
    (done : dentLoop p ops fuel ino hashMin = some (visits, ret)) (success : 0 ≤ ret) :
    (visits.map UbiLeafNode.keyNat).count ((dir.toNat * 8 + 2) * 2^29 + h % 2^29) ≤
      (if ino = dir ∧ hashMin.toNat % 2^29 ≤ h % 2^29 then 1 else 0) + (visits.filterMap (dirOf p)).count dir := by
  induction fuel generalizing ino hashMin visits ret with
  | zero => simp [dentLoop] at done
  | succ fuel ih =>
    have answered := findDent index ino hashMin
    obtain ⟨less, same, ⟨_, rfl, _⟩ | ⟨found, dent, below, r, rest, search, read, run, went, loop, rfl⟩⟩ :=
      dentLoop_done done success
    · simp
    obtain rfl : fuel = less := by omega
    rw [search] at answered
    obtain ⟨member, ⟨least, _⟩, _⟩ := answered
    have further := ih loop success
    have notLast := dentLoop_notLast index member loop success
    have bound : found.hash < 2^29 := Nat.mod_lt _ (by decide)
    have next : (nextHashMin found).toNat % 2^29 = found.hash + 1 := by
      rw [nextHashMin_toNat, if_neg notLast]
      omega
    have entered : (below.map UbiLeafNode.keyNat).count ((dir.toNat * 8 + 2) * 2^29 + h % 2^29) ≤
        (if dirOf p found = some dir then 1 else 0) + (below.filterMap (dirOf p)).count dir := by
      by_cases directory : dent.itype = .dir
      · have inside := ih (run.1 directory).2 went
        rw [dirOf_eq_some read directory]
        simpa using inside
      · rw [(run.2 directory).1]
        simp
    have own : (if found.keyNat = (dir.toNat * 8 + 2) * 2^29 + h % 2^29 then 1 else 0) +
        (if ino = dir ∧ (nextHashMin found).toNat % 2^29 ≤ h % 2^29 then 1 else 0) ≤
          if ino = dir ∧ hashMin.toNat % 2^29 ≤ h % 2^29 then 1 else 0 := by
      obtain ⟨_, group⟩ := mem_dirLeafs.mp member
      rw [next]
      by_cases here : found.keyNat = (dir.toNat * 8 + 2) * 2^29 + h % 2^29
      · have sameDir : ino = dir := by
          apply BitVec.eq_of_toNat_eq
          omega
        have sameHash : found.hash = h % 2^29 := by
          simp only [UbiLeafNode.hash]
          omega
        rw [if_pos here, if_neg (by omega), if_pos ⟨sameDir, by omega⟩]
      · rw [if_neg here]
        split
        · rename_i later
          rw [if_pos ⟨later.1, by omega⟩]
        · exact Nat.zero_le _
    simp only [List.cons_append, List.map_cons, List.map_append, List.count_cons, List.count_append,
      count_filterMap_cons, List.filterMap_append, beq_iff_eq]
    omega

end Loop

def VisitsOnce (run : Nat → Option (List UbiLeafNode × Int)) (leafs : List UbiLeafNode) : Prop :=
  ∃ fuel visits, run fuel = some (visits, 0) ∧ visits.Perm leafs

/-- No two entries share a key, none has the last hash, and the own operation of each ends well. -/
def Enumerable (p : UbiVolume) (ops : DentOps) (leafs : List UbiLeafNode) : Prop :=
  (leafs.map UbiLeafNode.keyNat).Nodup ∧ ∀ leaf ∈ leafs, EntryDone p ops leaf ∧ leaf.hash ≠ 2^29 - 1

theorem dentLoop_exact {p : UbiVolume} {ops : DentOps} (index : DentIndex p.root) (stable : ops.Stable)
    {leafs : List UbiLeafNode} (tree : DentTree p leafs) :
    VisitsOnce (fun fuel => dentLoop p ops fuel 1 0) leafs ↔ Enumerable p ops leafs := by
  constructor
  · rintro ⟨fuel, visits, done, perm⟩
    have visited := dentLoop_fine index done (le_refl 0)
    refine ⟨?_, fun leaf member => (visited leaf (perm.mem_iff.mpr member)).1⟩
    rw [← (perm.map UbiLeafNode.keyNat).nodup_iff, List.nodup_iff_count_le_one]
    intro key
    by_cases member : key ∈ visits.map UbiLeafNode.keyNat
    · obtain ⟨leaf, leafMember, rfl⟩ := List.mem_map.mp member
      obtain ⟨_, dir, inDir⟩ := visited leaf leafMember
      obtain ⟨_, group⟩ := mem_dirLeafs.mp inDir
      have counted := dentLoop_count index dir leaf.keyNat done (le_refl 0)
      have key : (dir.toNat * 8 + 2) * 2^29 + leaf.keyNat % 2^29 = leaf.keyNat := by
        rw [← group]
        exact Nat.div_add_mod' _ _
      have entered := List.nodup_iff_count_le_one.mp tree.once dir
      rw [List.count_cons, ← (perm.filterMap (dirOf p)).count_eq dir] at entered
      simp only [key, beq_iff_eq] at counted entered
      have start : (if (1 : BitVec 32) = dir ∧ (0 : BitVec 32).toNat % 2^29 ≤ leaf.keyNat % 2^29 then 1 else 0) ≤
          if (1 : BitVec 32) = dir then 1 else 0 := by
        split
        · rename_i root
          rw [if_pos root.1]
        · exact Nat.zero_le _
      omega
    · rw [List.count_eq_zero_of_not_mem member]
      exact Nat.zero_le 1
  · rintro ⟨keys, fine⟩
    obtain ⟨fuel, done⟩ := dentLoop_visits index stable tree.below keys fine 1 0 [] rfl
      (fun _ member => absurd member List.not_mem_nil) (fun _ _ => Nat.zero_le _)
    exact ⟨fuel, leafs, done, List.Perm.refl leafs⟩

end ImgEditor
