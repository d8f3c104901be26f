import ImgEditor.Core.KeySearch
import ImgEditor.Fs.UbiIndex

namespace ImgEditor

open KeySearch

def UbiLeafNode.keyNat (leaf : UbiLeafNode) : Nat := leaf.key.toNat

mutual
def UbiBranch.leafs : UbiBranch → List UbiLeafNode
  | .mk _ entries => entries.leafs

def BranchEntries.leafs : BranchEntries → List UbiLeafNode
  | .nil => []
  | .leaf node rest => node :: rest.leafs
  | .branch _ selfBranch rest => selfBranch.leafs ++ rest.leafs
end

mutual
def UbiBranch.Uniform : UbiBranch → Nat → Prop
  | .mk _ entries, depth => entries.Uniform depth

def BranchEntries.Uniform : BranchEntries → Nat → Prop
  | .nil, _ => True
  | .leaf _ rest, depth => depth = 0 ∧ rest.Uniform depth
  | .branch _ selfBranch rest, depth =>
    (∃ below, depth = below + 1 ∧ selfBranch.Uniform below) ∧ rest.Uniform depth
end

mutual
def UbiBranch.NonEmpty : UbiBranch → Prop
  | .mk _ entries => entries.isEmpty = false ∧ entries.NonEmpty

def BranchEntries.NonEmpty : BranchEntries → Prop
  | .nil => True
  | .leaf _ rest => rest.NonEmpty
  | .branch _ selfBranch rest => selfBranch.NonEmpty ∧ rest.NonEmpty
end

mutual
def UbiBranch.Separated : UbiBranch → Prop
  | .mk _ entries => entries.Separated

def BranchEntries.Separated : BranchEntries → Prop
  | .nil => True
  | .leaf _ rest => rest.Separated
  | .branch node selfBranch rest =>
    (∀ leaf ∈ selfBranch.leafs, node.keyNat ≤ leaf.keyNat) ∧ selfBranch.Separated ∧ rest.Separated
end

/-- An index tree that UBIFS itself could have written: any fanout, any depth. -/
structure IndexTree (root : UbiBranch) : Prop where
  uniform : ∃ depth, root.Uniform depth
  nonEmpty : root.NonEmpty
  separated : root.Separated
  ordered : Ordered UbiLeafNode.keyNat root.leafs

theorem BranchEntries.childLeafs_eq_leafs {entries : BranchEntries} (flat : entries.noChildBranches = true) :
    entries.childLeafs = entries.leafs := by
  cases entries with
  | nil => rfl
  | leaf node rest => 
    have tail : rest.childLeafs = rest.leafs := childLeafs_eq_leafs flat
    simp only [childLeafs, leafs, tail]
  | branch node selfBranch rest => exact absurd flat (by simp [noChildBranches])

theorem BranchEntries.Uniform.inner {entries : BranchEntries} {depth : Nat} (uniform : entries.Uniform depth)
    (linked : entries.noChildBranches = false) : depth ≠ 0 := by
  cases entries with
  | nil => simp [noChildBranches] at linked
  | leaf node rest => exact Uniform.inner uniform.2 linked
  | branch node selfBranch rest =>
    obtain ⟨⟨below, deeper, _⟩, _⟩ := uniform
    omega

theorem BranchEntries.leafs_eq_nil {entries : BranchEntries} (empty : entries.isEmpty = true) :
    entries.leafs = [] := by
  cases entries with
  | nil => rfl
  | leaf node rest => exact absurd empty (by simp [isEmpty])
  | branch node selfBranch rest => exact absurd empty (by simp [isEmpty])

mutual
theorem ubiBptreeBranchMaxKey_last : (b : UbiBranch) → b.NonEmpty →
    ∃ front last, b.leafs = front ++ [last] ∧ ubiBptreeBranchMaxKey b = last.key
  | .mk _ entries, ⟨filled, nonEmpty⟩ => by
    simp only [UbiBranch.leafs, ubiBptreeBranchMaxKey]
    exact lastLeafMaxKey_last entries filled nonEmpty

theorem lastLeafMaxKey_last : (entries : BranchEntries) → entries.isEmpty = false → entries.NonEmpty →
    ∃ front last, entries.leafs = front ++ [last] ∧ lastLeafMaxKey entries = last.key
  | .nil, filled, _ => by simp [BranchEntries.isEmpty] at filled
  | .leaf node rest, _, nonEmpty => by
    simp only [BranchEntries.leafs, lastLeafMaxKey]
    cases empty : rest.isEmpty with
    | true => exact ⟨[], node, by rw [BranchEntries.leafs_eq_nil empty]; rfl, by simp⟩
    | false =>
      obtain ⟨front, last, shape, key⟩ := lastLeafMaxKey_last rest empty nonEmpty
      exact ⟨node :: front, last, by rw [shape]; rfl, by simpa using key⟩
  | .branch node selfBranch rest, _, nonEmpty => by
    simp only [BranchEntries.leafs, lastLeafMaxKey]
    cases empty : rest.isEmpty with
    | true =>
      obtain ⟨front, last, shape, key⟩ := ubiBptreeBranchMaxKey_last selfBranch nonEmpty.1
      exact ⟨front, last, by rw [BranchEntries.leafs_eq_nil empty, List.append_nil, shape], by simpa using key⟩
    | false =>
      obtain ⟨front, last, shape, key⟩ := lastLeafMaxKey_last rest empty nonEmpty.2
      exact ⟨selfBranch.leafs ++ front, last, by rw [shape, List.append_assoc], by simpa using key⟩
end

theorem ubiBptreeBranchMaxKey_mem {b : UbiBranch} (nonEmpty : b.NonEmpty) :
    ∃ last ∈ b.leafs, ubiBptreeBranchMaxKey b = last.key := by
  obtain ⟨front, last, shape, key⟩ := ubiBptreeBranchMaxKey_last b nonEmpty
  exact ⟨last, by simp [shape], key⟩

theorem le_ubiBptreeBranchMaxKey {b : UbiBranch} (nonEmpty : b.NonEmpty)
    (sorted : Sorted UbiLeafNode.keyNat b.leafs) {leaf : UbiLeafNode} (member : leaf ∈ b.leafs) :
    leaf.keyNat ≤ (ubiBptreeBranchMaxKey b).toNat := by
  obtain ⟨front, last, shape, key⟩ := ubiBptreeBranchMaxKey_last b nonEmpty
  rw [shape] at member sorted
  rw [key]
  rcases List.mem_append.mp member with member | member
  · have below := (List.pairwise_append.mp sorted).2.2 leaf member last (by simp)
    exact below
  · rw [List.mem_singleton.mp member]
    exact le_refl _

theorem ubiBptreeBranchMinKey_le {b : UbiBranch} (nonEmpty : b.NonEmpty) (separated : b.Separated)
    (sorted : Sorted UbiLeafNode.keyNat b.leafs) {leaf : UbiLeafNode} (member : leaf ∈ b.leafs) :
    (ubiBptreeBranchMinKey b).toNat ≤ leaf.keyNat := by
  obtain ⟨level, entries⟩ := b
  cases entries with
  | nil => simp [UbiBranch.leafs, BranchEntries.leafs] at member
  | leaf node rest =>
    simp only [UbiBranch.leafs, BranchEntries.leafs] at member sorted
    rcases List.mem_cons.mp member with rfl | member
    · exact le_refl _
    · exact (List.pairwise_cons.mp sorted).1 leaf member
  | branch node selfBranch rest =>
    simp only [UbiBranch.leafs, BranchEntries.leafs] at member sorted
    rcases List.mem_append.mp member with member | member
    · exact separated.1 leaf member
    · obtain ⟨last, lastMember, _⟩ := ubiBptreeBranchMaxKey_mem nonEmpty.2.1
      have start := separated.1 last lastMember
      have after := (List.pairwise_append.mp sorted).2.2 last lastMember leaf member
      exact start.trans after

theorem ubiBptreeBranchFindLeaf_eq_find? (childLeafs : List UbiLeafNode) (keyMin keyMax : BitVec 64) :
    ubiBptreeBranchFindLeaf childLeafs keyMin keyMax =
      childLeafs.find? fun leaf => decide (Inside UbiLeafNode.keyNat keyMin.toNat keyMax.toNat leaf) := by
  induction childLeafs with
  | nil => rfl
  | cons leaf rest ih =>
    simp only [ubiBptreeBranchFindLeaf]
    by_cases inside : Inside UbiLeafNode.keyNat keyMin.toNat keyMax.toNat leaf
    · rw [List.find?_cons_of_pos (by simpa using inside)]
      have compared : keyMin ≤ leaf.key ∧ leaf.key ≤ keyMax := inside
      simp [compared]
    · rw [List.find?_cons_of_neg (by simpa using inside)]
      have exact_key : ¬ (keyMin = keyMax ∧ keyMin = leaf.key) := by
        rintro ⟨rfl, rfl⟩
        exact inside ⟨le_refl _, le_refl _⟩
      have compared : ¬ (keyMin ≤ leaf.key ∧ leaf.key ≤ keyMax) := inside
      rw [if_neg exact_key, if_neg compared, ih]

theorem shiftLeft_or (high low : Nat) {width : Nat} (fits : low < 2 ^ width) :
    high * 2 ^ width ||| low = high * 2 ^ width + low := by
  rw [← Nat.shiftLeft_eq, Nat.shiftLeft_add_eq_or_of_lt fits]

theorem packKey (key0 keytype hash : Nat) (key0Bound : key0 < 2 ^ 32) (typeBound : keytype < 8)
    (hashBound : hash < 2 ^ 29) :
    key0 % 2 ^ 64 * 2 ^ 32 % 2 ^ 64 ||| (keytype % 2 ^ 32 * 2 ^ 29 % 2 ^ 32 ||| hash) % 2 ^ 64 =
      key0 * 2 ^ 32 + (keytype * 2 ^ 29 + hash) := by
  have typeShift : keytype % 2 ^ 32 * 2 ^ 29 % 2 ^ 32 = keytype * 2 ^ 29 := by omega
  have fieldsBound : keytype * 2 ^ 29 + hash < 2 ^ 32 := by omega
  have shifted : key0 * 2 ^ 32 < 2 ^ 64 := by
    have scaled := Nat.mul_lt_mul_of_pos_right key0Bound (Nat.two_pow_pos 32)
    rwa [← Nat.pow_add] at scaled
  have wide : 2 ^ 32 < 2 ^ 64 := Nat.pow_lt_pow_right (by decide) (by decide)
  rw [typeShift, shiftLeft_or _ _ hashBound, Nat.mod_eq_of_lt (fieldsBound.trans wide),
    Nat.mod_eq_of_lt (key0Bound.trans wide), Nat.mod_eq_of_lt shifted, shiftLeft_or _ _ fieldsBound]

theorem ubiLeafMakeKey_toNat (keytype : BitVec 8) (key0 hash : BitVec 32) :
    (ubiLeafMakeKey keytype key0 hash).toNat =
      key0.toNat * 2 ^ 32 + (keytype.toNat % 8 * 2 ^ 29 + hash.toNat % 2 ^ 29) := by
  have hashPart : (hash &&& UBIFS_S_KEY_HASH_MASK).toNat = hash.toNat % 2 ^ 29 := by
    rw [BitVec.toNat_and]
    exact Nat.and_two_pow_sub_one_eq_mod _ 29
  have typePart : (keytype &&& 7).toNat = keytype.toNat % 8 := by
    rw [BitVec.toNat_and]
    exact Nat.and_two_pow_sub_one_eq_mod _ 3
  simp only [ubiLeafMakeKey, UBIFS_S_KEY_BLOCK_BITS, BitVec.toNat_or, BitVec.toNat_shiftLeft,
    BitVec.truncate_eq_setWidth, BitVec.toNat_setWidth, hashPart, typePart, Nat.shiftLeft_eq]
  exact packKey _ _ _ key0.isLt (Nat.mod_lt _ (by decide)) (Nat.mod_lt _ (by decide))

theorem clearHash_toNat (key : BitVec 64) :
    (key &&& (~~~ UBIFS_S_KEY_HASH_MASK).signExtend 64).toNat = key.toNat / 2 ^ 29 * 2 ^ 29 := by
  have mask : (~~~ UBIFS_S_KEY_HASH_MASK).signExtend 64 = ~~~ (BitVec.ofNat 64 (2 ^ 29 - 1)) := by decide
  have shifted : key &&& ~~~ (BitVec.ofNat 64 (2 ^ 29 - 1)) = (key >>> 29) <<< 29 := by
    ext i inside
    have masked : (BitVec.ofNat 64 (2 ^ 29 - 1))[i] = decide (i < 29) := by
      rw [← BitVec.getLsbD_eq_getElem inside, BitVec.getLsbD_ofNat, Nat.testBit_two_pow_sub_one]
      simp [inside]
    simp only [BitVec.getElem_and, BitVec.getElem_not, masked, BitVec.getElem_shiftLeft,
      BitVec.getElem_ushiftRight]
    by_cases low : i < 29
    · simp [low]
    · simp [low, Nat.add_sub_of_le (Nat.le_of_not_lt low), BitVec.getLsbD_eq_getElem inside]
  rw [mask, shifted, BitVec.toNat_shiftLeft, BitVec.toNat_ushiftRight, Nat.shiftRight_eq_div_pow,
    Nat.shiftLeft_eq, Nat.mod_eq_of_lt]
  exact (Nat.div_mul_le_self _ _).trans_lt key.isLt

def SameGroup (low high : Nat) : Prop := low / 2 ^ 29 = high / 2 ^ 29

theorem ubiLeafMakeKey_sameGroup (keytype : BitVec 8) (key0 hashMin hashMax : BitVec 32) :
    SameGroup (ubiLeafMakeKey keytype key0 hashMin).toNat (ubiLeafMakeKey keytype key0 hashMax).toNat := by
  simp only [SameGroup, ubiLeafMakeKey_toNat]
  omega

theorem SameGroup.above {low high key : Nat} (group : SameGroup low high)
    (above : low < key / 2 ^ 29 * 2 ^ 29) : high < key := by
  unfold SameGroup at group
  omega

section Search

variable {keyMin keyMax : BitVec 64}

theorem ubiBptreeBranchFindLeaf_first (childLeafs : List UbiLeafNode)
    (sorted : Sorted UbiLeafNode.keyNat childLeafs) :
    FirstInside UbiLeafNode.keyNat keyMin.toNat keyMax.toNat childLeafs
      (ubiBptreeBranchFindLeaf childLeafs keyMin keyMax) := by
  rw [ubiBptreeBranchFindLeaf_eq_find?]
  exact firstInside_find? sorted

mutual
theorem ubiBptreeFindKeys_first (group : SameGroup keyMin.toNat keyMax.toNat) :
    (b : UbiBranch) → (depth : Nat) → b.Uniform depth → b.NonEmpty → b.Separated →
    Sorted UbiLeafNode.keyNat b.leafs →
    FirstInside UbiLeafNode.keyNat keyMin.toNat keyMax.toNat b.leafs (ubiBptreeFindKeys keyMin keyMax b)
  | .mk _ entries, depth, uniform, nonEmpty, separated, sorted => by
    simp only [ubiBptreeFindKeys, UbiBranch.leafs]
    cases flat : entries.noChildBranches with
    | true =>
      rw [if_pos rfl, BranchEntries.childLeafs_eq_leafs flat]
      exact ubiBptreeBranchFindLeaf_first entries.leafs sorted
    | false =>
      rw [if_neg (by decide)]
      exact ubiBptreeFindChild_first group entries depth uniform (uniform.inner flat) nonEmpty.2 separated sorted

theorem ubiBptreeFindChild_first (group : SameGroup keyMin.toNat keyMax.toNat) :
    (entries : BranchEntries) → (depth : Nat) → entries.Uniform depth → depth ≠ 0 →
    entries.NonEmpty → entries.Separated → Sorted UbiLeafNode.keyNat entries.leafs →
    FirstInside UbiLeafNode.keyNat keyMin.toNat keyMax.toNat entries.leafs
      (ubiBptreeFindChild keyMin keyMax entries)
  | .nil, _, _, _, _, _, _ => fun _ member => absurd member List.not_mem_nil
  | .leaf _ _, _, uniform, inner, _, _, _ => absurd uniform.1 inner
  | .branch node b rest, depth, uniform, inner, nonEmpty, separated, sorted => by
    obtain ⟨⟨below, _, uniformBelow⟩, uniformRest⟩ := uniform
    obtain ⟨nonEmptyBelow, nonEmptyRest⟩ := nonEmpty
    obtain ⟨_, separatedBelow, separatedRest⟩ := separated
    obtain ⟨sortedBelow, sortedRest, across⟩ := List.pairwise_append.mp sorted
    obtain ⟨last, lastMember, lastKey⟩ := ubiBptreeBranchMaxKey_mem nonEmptyBelow
    have answeredRest := ubiBptreeFindChild_first group rest depth uniformRest inner nonEmptyRest
      separatedRest sortedRest
    simp only [ubiBptreeFindChild, BranchEntries.leafs]
    by_cases early : keyMin < ubiBptreeBranchMinKey b &&& (~~~ UBIFS_S_KEY_HASH_MASK).signExtend 64
    · rw [if_pos early]
      have start : keyMin.toNat < (ubiBptreeBranchMinKey b).toNat / 2 ^ 29 * 2 ^ 29 := by
        rw [← clearHash_toNat]
        exact early
      have aboveFirst := group.above start
      have aboveBelow : ∀ leaf ∈ b.leafs, keyMax.toNat < leaf.keyNat := fun leaf member =>
        aboveFirst.trans_le (ubiBptreeBranchMinKey_le nonEmptyBelow separatedBelow sortedBelow member)
      apply FirstInside.none_of_above
      intro leaf member
      rcases List.mem_append.mp member with member | member
      · exact aboveBelow leaf member
      · exact (aboveBelow last lastMember).trans_le (across last lastMember leaf member)
    rw [if_neg early]
    by_cases before : ubiBptreeBranchMaxKey b < keyMin
    · rw [if_pos before]
      refine FirstInside.skip (fun leaf member => ?_) answeredRest
      exact (le_ubiBptreeBranchMaxKey nonEmptyBelow sortedBelow member).trans_lt before
    rw [if_neg before]
    have reaches : keyMin.toNat ≤ last.keyNat := by
      rw [UbiLeafNode.keyNat, ← lastKey]
      exact Nat.le_of_not_lt before
    cases flat : b.entries.noChildBranches with
    | true =>
      have same : b.entries.childLeafs = b.leafs := by
        obtain ⟨level, entries⟩ := b
        exact BranchEntries.childLeafs_eq_leafs flat
      have answered : FirstInside _ _ _ _ (ubiBptreeBranchFindLeaf b.leafs keyMin keyMax) :=
        ubiBptreeBranchFindLeaf_first b.leafs sortedBelow
      rw [if_pos rfl, same]
      cases search : ubiBptreeBranchFindLeaf b.leafs keyMin keyMax with
      | some leaf =>
        rw [search] at answered
        exact answered.stop sorted lastMember reaches
      | none =>
        rw [search] at answered
        exact FirstInside.skip_empty answered answeredRest
    | false =>
      rw [if_neg (by decide)]
      have answered := ubiBptreeFindKeys_first group b below uniformBelow nonEmptyBelow separatedBelow sortedBelow
      exact answered.stop sorted lastMember reaches
end

end Search

/-- The search returns the leaf with the smallest key of the interval, and NULL exactly when no
leaf key lies in it. -/
theorem ubiBptreeFind_smallest (root : UbiBranch) (tree : IndexTree root) (keytype : BitVec 8)
    (key0 hashMin hashMax : BitVec 32) :
    let keyMin := ubiLeafMakeKey keytype key0 hashMin
    let keyMax := ubiLeafMakeKey keytype key0 hashMax
    (∀ leaf, ubiBptreeFind root keytype key0 hashMin hashMax = some leaf ↔
      leaf ∈ root.leafs ∧ (keyMin ≤ leaf.key ∧ leaf.key ≤ keyMax) ∧
        ∀ other ∈ root.leafs, keyMin ≤ other.key ∧ other.key ≤ keyMax → leaf.key ≤ other.key) ∧
    (ubiBptreeFind root keytype key0 hashMin hashMax = none ↔
      ∀ leaf ∈ root.leafs, ¬ (keyMin ≤ leaf.key ∧ leaf.key ≤ keyMax)) := by
  intro keyMin keyMax
  obtain ⟨⟨depth, uniform⟩, nonEmpty, separated, ordered⟩ := tree
  have answered := ubiBptreeFindKeys_first (ubiLeafMakeKey_sameGroup keytype key0 hashMin hashMax)
    root depth uniform nonEmpty separated ordered.sorted
  exact ⟨fun leaf => answered.some_iff ordered leaf, answered.none_iff⟩

theorem ubiBptreeFind_smallest_twoNodes :
    let entry (key1 : BitVec 32) : UbiLeafNode := ⟨5, key1, 7, 0⟩
    let node (low high : BitVec 32) : UbiBranch := .mk 0 (.leaf (entry low) (.leaf (entry high) .nil))
    let root : UbiBranch := .mk 1 (.branch (entry 1) (node 3 6) (.branch (entry 9) (node 11 12) .nil))
    ubiBptreeFind root 0 5 8 12 = some (entry 11) := by
  intro entry node root
  have tree : IndexTree root := by
    refine ⟨⟨1, ?_⟩, ?_, ?_, ?_⟩
    · simp [root, node, UbiBranch.Uniform, BranchEntries.Uniform]
    · simp [root, node, UbiBranch.NonEmpty, BranchEntries.NonEmpty, BranchEntries.isEmpty]
    · simp only [root, node, UbiBranch.Separated, BranchEntries.Separated, UbiBranch.leafs,
        BranchEntries.leafs]
      decide
    · simp only [root, node, Ordered, UbiBranch.leafs, BranchEntries.leafs]
      decide
  apply ((ubiBptreeFind_smallest root tree 0 5 8 12).1 (entry 11)).mpr
  simp only [root, node, UbiBranch.leafs, BranchEntries.leafs]
  decide

theorem loadChilds_flat {load : BitVec 32 → BitVec 32 → Option UbiBranch} {childLeafs : List UbiLeafNode}
    {entries : BranchEntries} (loaded : loadChilds load childLeafs = some entries) :
    entries.childLeafs = childLeafs ∧ (childLeafs ≠ [] → entries.noChildBranches = false) := by
  induction childLeafs generalizing entries with
  | nil =>
    obtain rfl := Option.some.inj loaded
    exact ⟨rfl, fun filled => absurd rfl filled⟩
  | cons leaf rest ih =>
    simp only [loadChilds, Option.bind_eq_bind, Option.bind_eq_some_iff, Option.pure_def,
      Option.some.injEq] at loaded
    obtain ⟨child, _, linked, restLoaded, rfl⟩ := loaded
    exact ⟨by simp [BranchEntries.childLeafs, (ih restLoaded).1], fun _ => rfl⟩

theorem ofLeafs_flat (childLeafs : List UbiLeafNode) :
    (BranchEntries.ofLeafs childLeafs).childLeafs = childLeafs ∧
      (BranchEntries.ofLeafs childLeafs).noChildBranches = true := by
  induction childLeafs with
  | nil => exact ⟨rfl, rfl⟩
  | cons leaf rest ih => exact ⟨by simp [BranchEntries.ofLeafs, BranchEntries.childLeafs, ih.1], ih.2⟩

theorem ubiBptreeLoad_entries {readLeb : BitVec 32 → Option (List Storage.Byte)} {fanout fuel : Nat}
    {lnum offs : BitVec 32} {b : UbiBranch}
    (loaded : ubiBptreeLoad readLeb fanout fuel lnum offs = some b) :
    ∃ self, ubiBptreeLoadIndexNode readLeb fanout lnum offs = some self ∧ b.level = self.level ∧
      b.entries.childLeafs = self.childLeafs ∧
      (self.childLeafs ≠ [] → (b.entries.noChildBranches = true ↔ b.level = 0)) := by
  cases fuel with
  | zero => simp [ubiBptreeLoad] at loaded
  | succ fuel =>
    simp only [ubiBptreeLoad, Option.bind_eq_bind, Option.bind_eq_some_iff] at loaded
    obtain ⟨self, node, linked⟩ := loaded
    refine ⟨self, node, ?_⟩
    by_cases bottom : self.level = 0
    · simp only [bottom, if_true, Option.pure_def, Option.some.injEq] at linked
      subst linked
      have flat := ofLeafs_flat self.childLeafs
      exact ⟨bottom.symm, flat.1, fun _ => ⟨fun _ => rfl, fun _ => flat.2⟩⟩
    · simp only [bottom, if_false, Option.bind_eq_some_iff, Option.pure_def, Option.some.injEq] at linked
      obtain ⟨entries, childs, rfl⟩ := linked
      obtain ⟨same, inner⟩ := loadChilds_flat childs
      refine ⟨rfl, same, fun filled => ⟨fun flat => ?_, fun level => absurd level bottom⟩⟩
      have linked := inner filled
      simp [UbiBranch.entries, linked] at flat

end ImgEditor
