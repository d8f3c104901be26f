import ImgEditor.Core.CInt
import ImgEditor.Storage.Bytes
import ImgEditor.Storage.Powers

namespace ImgEditor

open Storage

def EXT4_FEATURE_RO_COMPAT_SPARSE_SUPER : Nat := 0x0001

/-- The superblock is the packed `struct ext2_sblock`. -/
def ext2HasRoCompatFeature (sb : List Byte) (flags : Nat) : Bool := leField sb 100 4 &&& flags ≠ 0

def isPowerOfLoop (b : Int) : Nat → Int → Bool
  | 0, a => a = b
  | fuel + 1, a =>
    if b < a then
      if a.tmod b ≠ 0 then false else isPowerOfLoop b fuel (a.tdiv b)
    else a = b

/-- An `int` loses a bit or more in every pass of the loop. -/
def isPowerOf (a b : Int) : Bool := isPowerOfLoop b 32 a

def powerBases : List Nat := [3, 5, 7]

/-- The `while (1)` loop on `tmpbuf`; `none` when it is not left in time. -/
def nextSparsePasses (n : Nat) : Nat → List Nat → Option (List Nat)
  | 0, _ => none
  | passes + 1, tmpbuf =>
    let grown := List.zipWith (fun tmp base => if tmp ≤ n then tmp * base % 2^64 else tmp) tmpbuf powerBases
    let notReady := tmpbuf.countP (· ≤ n)
    if notReady = 0 then some grown else nextSparsePasses n passes grown

def nextSparseSuperBlockNumber (passes n : Nat) : Option Nat :=
  if n = 1 then some 3
  else
    (nextSparsePasses n passes [3, 5, 7]).map fun tmpbuf =>
      (tmpbuf.drop 1).foldl (fun least tmp => if tmp < least then tmp else least) (tmpbuf.headD 0)

/-- The `group` that is passed on to `is_power_of` becomes an `int`. -/
def ext2BlockGroupHasBackupSb (sb : List Byte) (group : Nat) : Bool :=
  if ext2HasRoCompatFeature sb EXT4_FEATURE_RO_COMPAT_SPARSE_SUPER then
    if group = 1 then true
    else [7, 5, 3].any fun base => isPowerOf (toInt32 group) base
  else true

/-- The groups that `ext2_do_resize_inode` goes through. -/
def sparseSuperGroups (passes nBlockGroup : Nat) : Option (List Nat) :=
  walkUpTo (nextSparseSuperBlockNumber passes) nBlockGroup (nBlockGroup + 1) 1

theorem isPowerOfLoop_iff {b : Nat} (base : 1 < b) (fuel : Nat) {a : Nat} (small : a < 2 ^ fuel) :
    isPowerOfLoop b fuel a = true ↔ IsPower b a := by
  induction fuel generalizing a with
  | zero =>
    rw [isPowerOfLoop, isPower_of_le base (by omega), decide_eq_true_iff, Int.ofNat_inj]
  | succ fuel ih =>
    rw [isPowerOfLoop]
    by_cases large : b < a
    · rw [if_pos (by omega), isPower_of_lt base large, ← Int.ofNat_tmod, ← Int.ofNat_tdiv]
      have smaller : a / b < 2 ^ fuel := by
        have halved : a / b ≤ a / 2 := Nat.div_le_div_left (by omega) (by omega)
        rw [Nat.pow_succ] at small
        omega
      by_cases divides : a % b = 0
      · rw [if_neg (by omega), ih smaller]
        exact (and_iff_right divides).symm
      · rw [if_pos (by omega)]
        exact iff_of_false Bool.false_ne_true fun power => divides power.1
    · rw [if_neg (by omega), isPower_of_le base (by omega), decide_eq_true_iff, Int.ofNat_inj]

def IsBackupGroup (m : Nat) : Prop := m = 1 ∨ ∃ base ∈ powerBases, IsPower base m

theorem ext2BlockGroupHasBackupSb_iff {sb : List Byte}
    (sparse : ext2HasRoCompatFeature sb EXT4_FEATURE_RO_COMPAT_SPARSE_SUPER = true) {group : Nat} (fits : group < 2 ^ 31) :
    ext2BlockGroupHasBackupSb sb group = true ↔ IsBackupGroup group := by
  have power {base : Nat} (big : 1 < base) : isPowerOf (toInt32 group) base = true ↔ IsPower base group := by
    rw [toInt32_of_lt fits, isPowerOf]
    exact isPowerOfLoop_iff big 32 (by omega)
  have three : isPowerOf (toInt32 group) 3 = true ↔ IsPower 3 group := power (by decide)
  have five : isPowerOf (toInt32 group) 5 = true ↔ IsPower 5 group := power (by decide)
  have seven : isPowerOf (toInt32 group) 7 = true ↔ IsPower 7 group := power (by decide)
  rw [ext2BlockGroupHasBackupSb, if_pos sparse, IsBackupGroup]
  by_cases one : group = 1
  · simp [one]
  · rw [if_neg one]
    simp only [List.any_cons, List.any_nil, Bool.or_false, Bool.or_eq_true, three, five, seven, powerBases,
      List.mem_cons, List.not_mem_nil, or_false, exists_eq_or_imp, exists_eq_left, one, false_or]
    constructor <;> rintro (here | here | here) <;> simp [here]

theorem powerBases_big {base : Nat} (member : base ∈ powerBases) : 1 < base := by
  revert base
  decide

theorem nextSparsePass_grown {n : Nat} (positive : n ≠ 0) (fits : ∀ base ∈ powerBases, nextPower base n < 2 ^ 64) (t : Nat) :
    List.zipWith (fun tmp base => if tmp ≤ n then tmp * base % 2^64 else tmp)
      (powerBases.map fun base => powerAfter base n t) powerBases = powerBases.map fun base => powerAfter base n (t + 1) := by
  rw [List.zipWith_map_left, List.zipWith_self]
  apply List.map_congr_left
  intro base member
  have step := powerAfter_succ (powerBases_big member) positive t
  have bound := (powerAfter_le_nextPower (powerBases_big member) n (t + 1)).trans_lt (fits base member)
  by_cases growing : powerAfter base n t ≤ n
  · rw [if_pos growing] at step ⊢
    rw [← step, Nat.mod_eq_of_lt bound]
  · rw [if_neg growing] at step ⊢
    rw [step]

theorem nextSparsePass_ready {n : Nat} (positive : n ≠ 0) (t : Nat) :
    (powerBases.map fun base => powerAfter base n t).countP (· ≤ n) = 0 ↔ ∀ base ∈ powerBases, Nat.log base n ≤ t := by
  rw [List.countP_eq_zero, List.forall_mem_map]
  apply forall₂_congr
  intro base member
  rw [decide_eq_true_iff, powerAfter_le_iff (powerBases_big member) positive, Nat.not_lt]

theorem nextSparsePasses_done {n : Nat} (positive : n ≠ 0) (fits : ∀ base ∈ powerBases, nextPower base n < 2 ^ 64)
    (passes t : Nat) (enough : ∀ base ∈ powerBases, Nat.log base n ≤ t + passes) :
    nextSparsePasses n (passes + 1) (powerBases.map fun base => powerAfter base n t) =
      some (powerBases.map fun base => nextPower base n) := by
  have grown := nextSparsePass_grown positive fits t
  induction passes generalizing t with
  | zero =>
    rw [nextSparsePasses, grown, if_pos ((nextSparsePass_ready positive t).mpr enough)]
    refine congrArg some (List.map_congr_left ?_)
    intro base member
    have done := enough base member
    exact powerAfter_done (by omega)
  | succ passes ih =>
    rw [nextSparsePasses, grown]
    by_cases ready : ∀ base ∈ powerBases, Nat.log base n ≤ t
    · rw [if_pos ((nextSparsePass_ready positive t).mpr ready)]
      refine congrArg some (List.map_congr_left ?_)
      intro base member
      have done := ready base member
      exact powerAfter_done (by omega)
    · rw [if_neg (mt (nextSparsePass_ready positive t).mp ready)]
      apply ih
      · intro base member
        have more := enough base member
        omega
      · exact nextSparsePass_grown positive fits (t + 1)

theorem nextPower_le {base n : Nat} (positive : n ≠ 0) : nextPower base n ≤ n * base := by
  rw [nextPower, Nat.pow_succ]
  exact Nat.mul_le_mul_right base (Nat.pow_log_le_self base positive)

/-- As long as nothing overflows, the number is the least power of one of the bases. -/
theorem nextSparseSuperBlockNumber_power {n passes : Nat} (positive : n ≠ 0)
    (fits : ∀ base ∈ powerBases, nextPower base n < 2 ^ 64) (enough : 64 ≤ passes) :
    ∃ m, nextSparseSuperBlockNumber passes n = some m ∧ IsLeast {m | n < m ∧ ∃ base ∈ powerBases, IsPower base m} m := by
  have three := nextPower_isLeast (show 1 < 3 by decide) n
  have five := nextPower_isLeast (show 1 < 5 by decide) n
  have seven := nextPower_isLeast (show 1 < 7 by decide) n
  have least := (three.union five).union seven
  have powers : {m | n < m ∧ IsPower 3 m} ∪ {m | n < m ∧ IsPower 5 m} ∪ {m | n < m ∧ IsPower 7 m} =
      {m | n < m ∧ ∃ base ∈ powerBases, IsPower base m} := by
    ext m
    simp only [Set.mem_union, Set.mem_ofPred_eq, powerBases, List.mem_cons, List.not_mem_nil, or_false, exists_eq_or_imp,
      exists_eq_left, and_or_left, or_assoc]
  rw [powers] at least
  refine ⟨_, ?_, least⟩
  rw [nextSparseSuperBlockNumber]
  by_cases one : n = 1
  · subst one
    rw [if_pos rfl]
    simp [nextPower]
  · have logs : ∀ base ∈ powerBases, Nat.log base n ≤ 0 + (passes - 1) := by
      intro base member
      have small : n < 2 ^ 64 := (nextPower_isLeast (powerBases_big member) n).1.1.trans (fits base member)
      have below := (Nat.log_anti_left (by decide) (powerBases_big member)).trans_lt (Nat.log_lt_of_lt_pow positive small)
      omega
    have done := nextSparsePasses_done positive fits (passes - 1) 0 logs
    simp only [powerAfter_zero, List.map_id', show passes - 1 + 1 = passes by omega] at done
    rw [if_neg one, show [3, 5, 7] = powerBases from rfl, done]
    simp only [powerBases, List.map_cons, List.map_nil, List.drop_succ_cons, List.drop_zero, List.foldl_cons, List.foldl_nil,
      List.headD_cons, Option.map_some, Option.some.injEq]
    split_ifs <;> omega

def NextIsLeast (passes : Nat) (sb : List Byte) (n : Nat) : Prop :=
  ∃ m, nextSparseSuperBlockNumber passes n = some m ∧ IsLeast {m | n < m ∧ ext2BlockGroupHasBackupSb sb m = true} m

/-- The walk from group 1 comes to the groups with a backup, in increasing order. -/
def BackupGroupsListed (passes : Nat) (sb : List Byte) (nBlockGroup : Nat) : Prop :=
  ∃ groups, sparseSuperGroups passes nBlockGroup = some groups ∧ groups.Pairwise (· < ·) ∧
    ∀ m, m ∈ groups ↔ 1 ≤ m ∧ m < nBlockGroup ∧ ext2BlockGroupHasBackupSb sb m = true

theorem nextPower_fits {n : Nat} (positive : n ≠ 0) (fits : n < 2 ^ 31) (base : Nat) (member : base ∈ powerBases) :
    nextPower base n < 2 ^ 64 := by
  have small : base ≤ 7 := by
    revert base
    decide
  have product := Nat.mul_le_mul_left n small
  have below : nextPower base n ≤ n * base := nextPower_le positive
  omega

section SparseSuper

variable {sb : List Byte} (sparse : ext2HasRoCompatFeature sb EXT4_FEATURE_RO_COMPAT_SPARSE_SUPER = true)
  {passes : Nat} (enough : 64 ≤ passes)

include sparse enough

theorem nextSparseSuperBlockNumber_isLeast {n : Nat} (positive : 1 ≤ n) (fits : n < 7 ^ 11) : NextIsLeast passes sb n := by
  have nonzero : n ≠ 0 := by omega
  rcases nextSparseSuperBlockNumber_power nonzero (nextPower_fits nonzero (by omega)) enough with
    ⟨m, found, ⟨above, base, member, power⟩, first⟩
  have bound : m ≤ 7 ^ 11 := first ⟨fits, 7, by decide, 10, rfl⟩
  refine ⟨m, found, ⟨above, ?_⟩, ?_⟩
  · exact (ext2BlockGroupHasBackupSb_iff sparse (by omega)).mpr (.inr ⟨base, member, power⟩)
  · rintro k ⟨later, backup⟩
    by_cases small : k < 2 ^ 31
    · rcases (ext2BlockGroupHasBackupSb_iff sparse small).mp backup with one | powers
      · omega
      · exact first ⟨later, powers⟩
    · omega

theorem sparseSuperGroups_listed {nBlockGroup : Nat} (fits : nBlockGroup ≤ 2 ^ 31) :
    BackupGroupsListed passes sb nBlockGroup := by
  have least (i : Nat) (inside : i < nBlockGroup) (start : 1 ≤ i ∧ IsBackupGroup i) :
      ∃ m, nextSparseSuperBlockNumber passes i = some m ∧ IsLeast {m | i < m ∧ 1 ≤ m ∧ IsBackupGroup m} m := by
    have nonzero : i ≠ 0 := by omega
    rcases nextSparseSuperBlockNumber_power nonzero (nextPower_fits nonzero (by omega)) enough with ⟨m, found, ⟨above, power⟩, first⟩
    refine ⟨m, found, ⟨above, by omega, .inr power⟩, ?_⟩
    rintro k ⟨later, -, one | powers⟩
    · omega
    · exact first ⟨later, powers⟩
  rcases walkUpTo_lists least nBlockGroup 1 (by omega) ⟨Nat.le_refl 1, .inl rfl⟩ with ⟨groups, walked, increasing, visited⟩
  refine ⟨groups, walked, increasing, ?_⟩
  intro m
  rw [visited]
  constructor
  · rintro ⟨positive, below, -, backup⟩
    exact ⟨positive, below, (ext2BlockGroupHasBackupSb_iff sparse (by omega)).mpr backup⟩
  · rintro ⟨positive, below, backup⟩
    exact ⟨positive, below, positive, (ext2BlockGroupHasBackupSb_iff sparse (by omega)).mp backup⟩

end SparseSuper

/-- `7 ^ 11` is the last power that fits the `int` of `is_power_of`. -/
theorem nextSparseSuperBlockNumber_least {sb : List Byte}
    (sparse : ext2HasRoCompatFeature sb EXT4_FEATURE_RO_COMPAT_SPARSE_SUPER = true) {passes : Nat} (enough : 64 ≤ passes) :
    (∀ n, 1 ≤ n → n < 7 ^ 11 → NextIsLeast passes sb n) ∧
      ∀ nBlockGroup, nBlockGroup ≤ 2 ^ 31 → BackupGroupsListed passes sb nBlockGroup :=
  ⟨fun _ positive fits => nextSparseSuperBlockNumber_isLeast sparse enough positive fits,
    fun _ fits => sparseSuperGroups_listed sparse enough fits⟩

def sparseSuperSb : List Byte := List.replicate 100 0 ++ [1, 0, 0, 0]

theorem nextSparseSuperBlockNumber_least_eight : NextIsLeast 64 sparseSuperSb 8 ∧ BackupGroupsListed 64 sparseSuperSb 100 := by
  rcases nextSparseSuperBlockNumber_least (show ext2HasRoCompatFeature sparseSuperSb 1 = true by decide) (Nat.le_refl 64) with
    ⟨least, listed⟩
  exact ⟨least 8 (by decide) (by decide), listed 100 (by decide)⟩

/-- The next power, `3 ^ 20`, is negative as an `int`. -/
theorem nextSparseSuperBlockNumber_narrowed :
    (∀ base ∈ powerBases, nextPower base (7 ^ 11) < 2 ^ 64) ∧ ¬ NextIsLeast 64 sparseSuperSb (7 ^ 11) := by
  refine ⟨fun base member => nextPower_fits (by decide) (by decide) base member, ?_⟩
  rintro ⟨m, found, ⟨-, backup⟩, -⟩
  have narrowed : (nextSparseSuperBlockNumber 64 (7 ^ 11)).all fun m => ext2BlockGroupHasBackupSb sparseSuperSb m = false := by
    decide +kernel
  rw [found] at narrowed
  simp [backup] at narrowed

example : sparseSuperGroups 64 100 = some [1, 3, 5, 7, 9, 25, 27, 49, 81] := by decide +kernel

end ImgEditor
