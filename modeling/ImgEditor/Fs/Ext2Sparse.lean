import ImgEditor.Android.SparseRaw
import ImgEditor.Fs.Ext2Whohas
import ImgEditor.Fs.SparseChunk

namespace ImgEditor

open Storage

/-- `android_sparse_add_bitmask_chunks` from bit `start` on, with at most the fuel's number of passes. -/
def androidSparseAddBitmaskChunks (b : Bitmask) : Nat → Int → AndroidSparseInput → Option AndroidSparseInput
  | 0, _, _ => none
  | fuel + 1, start, input =>
    let start := b.nextOne (toSizeT start)
    if start < 0 then some input
    else
      let stop := b.nextZero (toSizeT (toInt32 (start + 1)))
      if stop < 0 then
        some (androidSparseAddChunk input (toSizeT start % 2^32) (toSizeT (b.totalBits - start) % 2^32)).2
      else
        androidSparseAddBitmaskChunks b fuel stop
          (androidSparseAddChunk input (toSizeT start % 2^32) (toSizeT (toInt32 (stop - start)) % 2^32)).2

/-- `ext2_add_inode_chunks` from inode `ino` on. Without a double indirect block nothing is marked for the resize
inode. -/
def ext2AddInodeChunks (memory : Nat → Memory) (p : Ext2PrivateData) :
    Nat → Nat → AndroidSparseInput → Option AndroidSparseInput
  | 0, _, input => some input
  | count + 1, ino, input =>
    match ext2InodeMarks memory p.toExt2Editor (sbTotalBlocks p.sblock) ino with
    | none => ext2AddInodeChunks memory p count (ino + 1) input
    | some dataBlocks =>
      (androidSparseAddBitmaskChunks dataBlocks (dataBlocks.totalBits + 1) 0 input).bind
        (ext2AddInodeChunks memory p count (ino + 1))

/-- `ext2_do_sparse`, the target being the file that it has just created. `android_sparse_finish` fails at once on an
input with an error. -/
def ext2DoSparse (junk : Nat → Byte) (memory : Nat → Memory) (p : Ext2PrivateData) : Option (SparseFinish Fd) :=
  let input := androidSparseInit p.blockSize (sbTotalBlocks p.sblock)
  let input := androidSparseAddChunks input (p.layouts.map fun layout => (layout.startBlock, layout.lenBlock))
  (ext2AddInodeChunks memory p (inodesScanned p.sblock) 1 input).bind fun input =>
    androidSparseFinish input Fd.created (ext2WriteSparseChunk junk p.blockSize) p.fd

def DiskLayout.Covers (layout : DiskLayout) (blk : Nat) : Prop :=
  layout.startBlock ≤ blk ∧ blk < layout.startBlock + layout.lenBlock

abbrev intBlock (blk : Nat) : Nat := min blk Bitmask.lastInt

section Adds

variable {input : AndroidSparseInput} {blksz : Nat} {S : Nat → Prop} {clean : Prop}

theorem androidSparseAddBitmaskChunks_next (b : Bitmask) (wide : b.totalBits < 2^32) {lo : Nat}
    (early : lo ≤ Bitmask.lastInt) (fuel : Nat) (input : AndroidSparseInput) :
    match nextIndex b.intView.bit b.totalBits lo with
    | none => androidSparseAddBitmaskChunks b (fuel + 1) lo input = some input
    | some k =>
      let next := (androidSparseAddChunk input k (b.intView.runEnd k - k)).2
      b.intView.runEnd k ≤ Bitmask.lastInt ∧
          androidSparseAddBitmaskChunks b (fuel + 1) lo input =
            androidSparseAddBitmaskChunks b fuel (b.intView.runEnd k) next ∨
        b.intView.runEnd k = b.totalBits ∧ androidSparseAddBitmaskChunks b (fuel + 1) lo input = some next := by
  have here := b.continueUpdate_intView wide ⟨lo, 0, 0⟩ rfl early
  have start := b.continueUpdate_start ⟨lo, 0, 0⟩
  have stop := b.continueUpdate_stop ⟨lo, 0, 0⟩
  unfold Bitmask.IntIteratorAt at here
  dsimp only at start stop
  cases found : nextIndex b.intView.bit b.totalBits lo with
  | none =>
    rw [found] at here
    dsimp only
    rw [androidSparseAddBitmaskChunks, ← start]
    exact if_pos here
  | some k =>
    rw [found] at here
    rcases here with ⟨first, small, last⟩
    have inside := (nextIndex_some found).2.1
    have nonnegative : ¬ (k : Int) < 0 := Int.not_lt.mpr (Int.natCast_nonneg k)
    dsimp only
    rw [androidSparseAddBitmaskChunks]
    rw [← start, first] at stop ⊢
    have stop := stop nonnegative
    dsimp only
    rw [if_neg nonnegative, ← stop, toSizeT_natCast (by omega), Nat.mod_eq_of_lt (show k < 2^32 by omega)]
    rcases last with ⟨ends, near, -⟩ | ⟨ends, whole, -⟩
    · have after := (b.intView.runEnd_spec (by rw [b.capped_totalBits]; exact inside) (nextIndex_some found).2.2.1).1
      have count : toSizeT (toInt32 ((b.intView.runEnd k : Int) - k)) % 2^32 = b.intView.runEnd k - k := by
        unfold Bitmask.lastInt at near
        rw [← Int.ofNat_sub (by omega), toInt32_of_lt (by omega), toSizeT_natCast (by omega), Nat.mod_eq_of_lt (by omega)]
      rw [ends, if_neg (Int.not_lt.mpr (Int.natCast_nonneg _)), count]
      exact .inl ⟨near, rfl⟩
    · have count : toSizeT ((b.totalBits : Int) - k) % 2^32 = b.intView.runEnd k - k := by
        rw [whole, ← Int.ofNat_sub (by omega), toSizeT_natCast (by omega), Nat.mod_eq_of_lt (by omega)]
      rw [if_pos ends, count]
      exact .inr ⟨whole, rfl⟩

theorem androidSparseAddBitmaskChunks_marks (b : Bitmask) (wide : b.totalBits < 2^32) {fuel lo : Nat}
    (early : lo ≤ Bitmask.lastInt) (enough : b.totalBits - lo < fuel) (marks : SparseMarks input blksz b.totalBits S clean) :
    ∃ out, androidSparseAddBitmaskChunks b fuel lo input = some out ∧
      SparseMarks out blksz b.totalBits (fun k => S k ∨ lo ≤ k ∧ b.intView.bit k = true) clean := by
  induction fuel generalizing lo input S with
  | zero => omega
  | succ fuel ih =>
    have next := androidSparseAddBitmaskChunks_next b wide early fuel input
    cases found : nextIndex b.intView.bit b.totalBits lo with
    | none =>
      rw [found] at next
      refine ⟨input, next, marks.congr fun k inside => ⟨.inl, fun either => either.resolve_right fun behind => ?_⟩⟩
      rw [nextIndex_none found behind.1 inside] at behind
      exact Bool.false_ne_true behind.2
    | some k =>
      rw [found] at next
      rcases nextIndex_some found with ⟨lower, inside, set, before⟩
      rcases b.intView.runEnd_spec (by rw [b.capped_totalBits]; exact inside) set with ⟨after, ends, value, -⟩
      rw [b.capped_totalBits] at ends
      have added := marks.addInside (show k + (b.intView.runEnd k - k) ≤ b.totalBits by omega) (by omega)
      rw [Nat.add_sub_of_le after.le] at added
      have gathered (i : Nat) (tail : Prop) (behind : b.intView.runEnd k ≤ i → (tail ↔ b.intView.bit i = true))
          (ahead : i < b.intView.runEnd k → ¬ tail) :
          (S i ∨ k ≤ i ∧ i < b.intView.runEnd k) ∨ tail ↔ S i ∨ lo ≤ i ∧ b.intView.bit i = true := by
        by_cases early : i < b.intView.runEnd k
        · rw [or_iff_left (ahead early)]
          refine or_congr_right ⟨fun both => ⟨by omega, value i both.1 both.2⟩, fun both => ⟨?_, early⟩⟩
          by_contra skipped
          rw [before i both.1 (by omega)] at both
          exact Bool.false_ne_true both.2
        · rw [behind (by omega), or_assoc]
          refine or_congr_right ⟨fun either => ?_, fun both => .inr both.2⟩
          rcases either with run | holds
          · exact absurd run.2 early
          · exact ⟨by omega, holds⟩
      rcases next with ⟨near, again⟩ | ⟨whole, last⟩
      · rcases ih near (by omega) added with ⟨out, done, all⟩
        refine ⟨out, again.trans done, all.congr fun i _ => gathered i _ (fun behind => ?_) fun early both => ?_⟩
        · exact and_iff_right behind
        · omega
      · refine ⟨_, last, added.congr fun i inside => ?_⟩
        have all := gathered i False (fun behind => absurd inside (by omega)) fun _ => id
        rwa [or_false] at all

theorem ext2AddInodeChunks_marks (memory : Nat → Memory) (p : Ext2PrivateData) (wide : sbTotalBlocks p.sblock < 2^32)
    (count ino : Nat) (marks : SparseMarks input blksz (sbTotalBlocks p.sblock) S clean) :
    ∃ out, ext2AddInodeChunks memory p count ino input = some out ∧
      SparseMarks out blksz (sbTotalBlocks p.sblock) (fun k => S k ∨ ∃ j, ino ≤ j ∧ j < ino + count ∧
        Ext2Compared memory p.toExt2Editor j ∧ Ext2Marked memory p.toExt2Editor j (intBlock k)) clean := by
  induction count generalizing ino input S with
  | zero => exact ⟨input, rfl, marks.congr fun k _ => ⟨.inl, fun either => either.resolve_right fun ⟨j, _, _, _⟩ => by omega⟩⟩
  | succ count ih =>
    have spec := ext2InodeMarks_spec memory p.toExt2Editor (sbTotalBlocks p.sblock) ino
    unfold ext2AddInodeChunks
    cases found : ext2InodeMarks memory p.toExt2Editor (sbTotalBlocks p.sblock) ino with
    | none =>
      rw [found] at spec
      rcases ih (ino + 1) marks with ⟨out, done, all⟩
      refine ⟨out, done, all.congr fun k _ => or_congr_right ⟨?_, ?_⟩⟩
      · rintro ⟨j, lower, upper, owner⟩
        exact ⟨j, by omega, by omega, owner⟩
      · rintro ⟨j, lower, upper, owner⟩
        have other : j ≠ ino := by
          rintro rfl
          exact spec owner.1
        exact ⟨j, by omega, by omega, owner⟩
    | some b =>
      rw [found] at spec
      rcases spec with ⟨compared, marked⟩
      have total := marked.size
      rw [← total] at marks wide
      have enough : b.totalBits - 0 < b.totalBits + 1 := by omega
      rcases androidSparseAddBitmaskChunks_marks b wide (Nat.zero_le _) enough marks with ⟨mid, added, here⟩
      rw [total] at here
      rcases ih (ino + 1) here with ⟨out, done, all⟩
      refine ⟨out, (congrArg (Option.bind · _) added).trans done, all.congr fun k inside => ?_⟩
      have near := marked.bits (intBlock k) ((Nat.min_le_left _ _).trans_lt inside)
      rw [or_assoc, b.capped_bit (by omega), near, and_iff_right (Nat.zero_le k)]
      refine or_congr_right ⟨?_, ?_⟩
      · rintro (first | ⟨j, lower, upper, owner⟩)
        · exact ⟨ino, by omega, by omega, compared, first⟩
        · exact ⟨j, by omega, by omega, owner⟩
      · rintro ⟨j, lower, upper, owner⟩
        by_cases first : j = ino
        · subst first
          exact .inl owner.2
        · exact .inr ⟨j, by omega, by omega, owner⟩

end Adds

def LayoutsPass (p : Ext2PrivateData) : Prop :=
  ∀ layout ∈ p.layouts, AddPasses (sbTotalBlocks p.sblock) layout.startBlock layout.lenBlock

def SparseHolds (memory : Nat → Memory) (p : Ext2PrivateData) (blk : Nat) : Prop :=
  blk < sbTotalBlocks p.sblock ∧ ((∃ layout ∈ p.layouts, layout.Covers (intBlock blk)) ∨
    ∃ ino, Scanned p ino ∧ Ext2Compared memory p.toExt2Editor ino ∧ Ext2Marked memory p.toExt2Editor ino (intBlock blk))


section DoSparse

variable {searchMode : Bool} {fd : Fd} {p : Ext2PrivateData} (junk : Nat → Byte) (memory : Nat → Memory)
  (accepted : Ext2Accepted fd p)

include accepted

theorem layouts_len_lt {layout : DiskLayout} (member : layout ∈ p.layouts) : layout.lenBlock < 2^32 := by
  rcases (accepted.mem_layouts layout).mp member with ⟨g, bgrp, -, listed⟩
  have reserved : sbReservedGdtBlocks p.sblock < 2^32 := (leField_lt p.sblock 206 2).trans (by decide)
  have one : 1 < 2^32 := by decide
  have wrapped (n : Nat) : n % 2^32 < 2^32 := Nat.mod_lt n (by decide)
  unfold groupLayouts backupLayouts at listed
  rcases List.mem_append.mp listed with backup | own
  · split at backup
    · rcases List.mem_append.mp backup with fixed | gdt
      · rcases List.mem_pair.mp fixed with rfl | rfl
        · exact one
        · exact wrapped _
      · split at gdt
        · cases List.mem_singleton.mp gdt
          exact reserved
        · cases gdt
    · cases backup
  · simp only [List.mem_cons, List.not_mem_nil, or_false] at own
    rcases own with rfl | rfl | rfl
    · exact one
    · exact one
    · exact wrapped _

theorem first_block_held : ∃ layout ∈ p.layouts, layout.Covers 0 := by
  rcases accepted.group_stored accepted.some_group with ⟨bgrp, stored⟩
  refine ⟨⟨.superBlock, 0, 0, 1⟩, (accepted.mem_layouts _).mpr ⟨0, bgrp, stored, ?_⟩, Nat.le_refl 0, by decide⟩
  exact superBlock_mem_groupLayouts.mpr ⟨.inl rfl, rfl, by rw [Nat.zero_mul]; rfl, rfl⟩

theorem blockSize_lt : p.blockSize < 2^32 := by
  have size : p.blockSize = sbBlockBytes p.sblock := by
    rw [accepted.editor]
    rfl
  rw [size]
  exact Nat.pow_lt_pow_right (by decide) accepted.blockShift

theorem totalBlocks_pos : 0 < sbTotalBlocks p.sblock := by
  have checked := accepted.checked
  unfold ext2CheckSblock at checked
  split_ifs at checked <;> omega

/-- The command returns; it succeeds if it can add all layouts, and then this is what the image has. -/
theorem ext2DoSparse_raw : ∃ st, ext2DoSparse junk memory p = some st ∧ (0 ≤ st.ret ↔ LayoutsPass p) ∧
    (LayoutsPass p → ∀ k, hasRawBlock st.fdTarget.file k = true ↔ SparseHolds memory p k) := by
  have wide : sbTotalBlocks p.sblock < 2^32 := leField_lt p.sblock 4 4
  have small : ∀ add ∈ p.layouts.map fun layout => (layout.startBlock, layout.lenBlock), add.2 < 2^32 :=
    List.forall_mem_map.mpr fun layout member => layouts_len_lt accepted member
  have start := (SparseMarks.init p.blockSize (sbTotalBlocks p.sblock)).addChunks small
  rcases ext2AddInodeChunks_marks memory p wide (inodesScanned p.sblock) 1 start with
    ⟨input, added, size, blocks, clean, b, present, marks⟩
  have passes : input.error = 0 ↔ LayoutsPass p := by
    rw [clean, true_and, List.forall_mem_map]
    rfl
  have held (k : Nat) : k < b.totalBits ∧ b.bit (min k Bitmask.lastInt) = true ↔ SparseHolds memory p k := by
    unfold SparseHolds
    rw [marks.size]
    refine and_congr_right fun inside => ?_
    rw [marks.bits _ ((Nat.min_le_left _ _).trans_lt inside), false_or]
    refine or_congr ?_ (exists_congr fun ino => ?_)
    · simp only [List.mem_map, exists_exists_and_eq_and]
      rfl
    · unfold Scanned
      rw [intBlock, intBlock, Nat.min_assoc, Nat.min_self, and_assoc, Nat.add_comm, Nat.lt_succ_iff]
  have run : ext2DoSparse junk memory p =
      androidSparseFinish input Fd.created (ext2WriteSparseChunk junk p.blockSize) p.fd := by
    unfold ext2DoSparse
    dsimp only
    rw [added]
    rfl
  rw [run]
  by_cases pass : LayoutsPass p
  · rcases androidSparseFinish_raw (writeSparseChunk_confined junk p.blockSize p.fd.file p.fd.start)
      (fun fd chunk s => (writeSparseChunk_ret junk p.blockSize fd chunk s).ge) input b Fd.created p.fd present
      (passes.mpr pass) size (blocks.trans marks.size.symm) (by rw [marks.size]; exact wide) (blockSize_lt accepted) rfl
      ⟨rfl, rfl⟩ with ⟨st, done, ret, raw⟩
    refine ⟨st, done, iff_of_true ?_ pass, fun _ k => (raw k).trans (held k)⟩
    refine ret.resolve_right fun clear => ?_
    have first := (held 0).mpr ⟨totalBlocks_pos accepted, .inl (first_block_held accepted)⟩
    rw [clear 0 first.1] at first
    exact Bool.false_ne_true first.2
  · have failed : ¬ (0 : Int) ≤ -1 := by decide
    refine ⟨⟨Fd.created, 0, 0, 0, -1, p.fd⟩, ?_, iff_of_false failed pass, fun passed => absurd passed pass⟩
    have dirty : input.error ≠ 0 := fun zero => pass (passes.mp zero)
    unfold androidSparseFinish
    rw [present]
    exact if_pos dirty

end DoSparse

/-- The command returns, and if it succeeds, every block of a file in use and of a layout is in a RAW chunk. -/
def SparseKeeps (junk : Nat → Byte) (memory : Nat → Memory) (p : Ext2PrivateData) : Prop :=
  ∃ st, ext2DoSparse junk memory p = some st ∧ (0 ≤ st.ret →
    (∀ ino blk, FileInUse p ino → FileRefers p ino blk → hasRawBlock st.fdTarget.file blk = true) ∧
      ∀ layout ∈ p.layouts, ∀ blk, layout.Covers blk → hasRawBlock st.fdTarget.file blk = true)

/-- No file refers to a block outside of the image, and what is missed of a file, lies behind the last `int` or is outside
of a layout's part of the image, is held all the same. -/
structure SparseFits (memory : Nat → Memory) (p : Ext2PrivateData) : Prop where
  inside : ∀ ino blk, FileInUse p ino → FileRefers p ino blk → blk < sbTotalBlocks p.sblock
  files : ∀ ino blk, FileInUse p ino → FileRefers p ino blk → Missed p blk ino ∨ Bitmask.lastInt < blk →
    SparseHolds memory p blk
  layouts : ∀ layout ∈ p.layouts, ∀ blk, layout.Covers blk → sbTotalBlocks p.sblock ≤ blk ∨ Bitmask.lastInt < blk →
    SparseHolds memory p blk

theorem ext2DoSparse_keeps_iff (junk : Nat → Byte) (memory : Nat → Memory) {searchMode : Bool} {fd : Fd} {p : Ext2PrivateData}
    (detected : ext2Detect searchMode fd = .ok p) : SparseKeeps junk memory p ↔ (LayoutsPass p → SparseFits memory p) := by
  rcases ext2DoSparse_raw junk memory (ext2Detect_accepted detected) with ⟨st, run, success, raw⟩
  constructor
  · rintro ⟨st', run', keeps⟩ pass
    cases run.symm.trans run'
    rcases keeps (success.mpr pass) with ⟨files, layouts⟩
    refine ⟨fun ino blk used refers => ?_, fun ino blk used refers _ => ?_, fun layout member blk covers _ => ?_⟩
    · exact ((raw pass blk).mp (files ino blk used refers)).1
    · exact (raw pass blk).mp (files ino blk used refers)
    · exact (raw pass blk).mp (layouts layout member blk covers)
  · intro fits
    refine ⟨st, run, fun succeeded => ?_⟩
    have pass := success.mp succeeded
    have fits := fits pass
    refine ⟨fun ino blk used refers => (raw pass blk).mpr ?_, fun layout member blk covers => (raw pass blk).mpr ?_⟩
    · by_cases special : Missed p blk ino ∨ Bitmask.lastInt < blk
      · exact fits.files ino blk used refers special
      · rcases not_or.mp special with ⟨kept, small⟩
        have inside := fits.inside ino blk used refers
        rcases @answers_of_fileRefers memory p blk ino used refers kept with ⟨scanned, compared, outside | marked⟩
        · omega
        · refine ⟨inside, .inr ⟨ino, scanned, compared, ?_⟩⟩
          rwa [intBlock, Nat.min_eq_left (Nat.le_of_not_lt small)]
    · by_cases special : sbTotalBlocks p.sblock ≤ blk ∨ Bitmask.lastInt < blk
      · exact fits.layouts layout member blk covers special
      · rcases not_or.mp special with ⟨inside, small⟩
        refine ⟨Nat.lt_of_not_le inside, .inl ⟨layout, member, ?_⟩⟩
        rwa [intBlock, Nat.min_eq_left (Nat.le_of_not_lt small)]

section OneFile

variable {freeInodes : Nat} {p : Ext2PrivateData} (either : freeInodes = 15 ∨ freeInodes = 4)
  (detected : ext2Detect false (oneFileImage freeInodes) = .ok p) (one : OneFile freeInodes p)

include either detected one

theorem oneFile_layouts {layout : DiskLayout} (member : layout ∈ p.layouts) : layout.startBlock + layout.lenBlock ≤ 5 := by
  have accepted := ext2Detect_accepted detected
  have groups : p.nBlockGroup = 1 := by rw [one.2]
  rcases (accepted.mem_layouts layout).mp member with ⟨g, bgrp, stored, listed⟩
  have first : g = 0 := by
    have inside := (List.getElem?_eq_some_iff.mp stored).1
    rw [accepted.groupCount] at inside
    omega
  subst first
  have near : (oneFileImage freeInodes).file.size < 2^63 := by
    rcases either with rfl | rfl
    · decide +kernel
    · decide +kernel
  rw [accepted.descriptors_read near (by omega), one.1, one.2] at stored
  rw [one.1, one.2, ← Option.some.inj stored] at listed
  clear member
  revert layout
  rcases either with rfl | rfl
  · decide +kernel
  · decide +kernel

theorem oneFile_pass : LayoutsPass p := by
  have total : sbTotalBlocks p.sblock = 8 := by
    rw [one.1]
    rcases either with rfl | rfl
    · decide +kernel
    · decide +kernel
  intro layout member
  have bound := oneFile_layouts either detected one member
  rw [total]
  exact .inl (by omega)

end OneFile

theorem oneFile_only {p : Ext2PrivateData} (one : OneFile 4 p) {ino blk : Nat} (used : FileInUse p ino)
    (refers : FileRefers p ino blk) : ino = 12 ∧ blk = 6 := by
  rcases used with ⟨first, last, bit, -⟩
  have single : ∀ i < 17, inodeInUse p i = true → i = 12 := by
    unfold inodeInUse inodeDescriptor storedDescriptor
    rw [one.1, one.2]
    decide +kernel
  have total : sbTotalInodes p.sblock = 16 := by
    rw [one.1]
    decide +kernel
  cases single ino (by omega) bit
  rcases refers with ⟨inode, stored, named⟩
  cases stored.symm.trans (oneFile_stored (.inr rfl) one)
  unfold InodeRefers at named
  rw [if_pos (by decide +kernel)] at named
  rcases named with ⟨root, member, present, holds⟩
  have roots : ∀ root ∈ inodeMapRoots oneFileInode, root.2 ≠ 0 → root = (0, 6) := by decide +kernel
  cases roots root member present
  exact ⟨rfl, holds⟩

/-- With 4 inodes free the scan comes to the file. -/
theorem ext2DoSparse_keeps_iff_oneFile : ∃ p, ext2Detect false (oneFileImage 4) = .ok p ∧
    SparseKeeps (fun _ => 0#8) (fun _ _ => 0#8) p := by
  rcases oneFile_detected (.inr rfl) with ⟨p, detected, one⟩
  refine ⟨p, detected, (ext2DoSparse_keeps_iff _ _ detected).mpr fun _ => ?_⟩
  have total : sbTotalBlocks p.sblock = 8 := by
    rw [one.1]
    decide +kernel
  have found : ext2WhohasBlkno (fun _ _ => 0#8) p 6 = some 12 := by
    unfold ext2WhohasBlkno
    rw [one.1, one.2]
    decide +kernel
  have held : SparseHolds (fun _ _ => 0#8) p 6 := by
    rcases ext2WhohasBlkno_some_iff.mp found with ⟨scanned, ⟨compared, outside | marked⟩, -⟩
    · omega
    · exact ⟨by omega, .inr ⟨12, scanned, compared, marked⟩⟩
  refine ⟨fun ino blk used refers => ?_, fun ino blk used refers _ => ?_, fun layout member blk covers beyond => ?_⟩
  · rw [(oneFile_only one used refers).2, total]
    decide
  · rw [(oneFile_only one used refers).2]
    exact held
  · have bound := oneFile_layouts (.inr rfl) detected one member
    have inside := covers.2
    unfold Bitmask.lastInt at beyond
    omega

/-- With 15 inodes free the block of the file is left out. -/
theorem ext2DoSparse_drops : ∃ p, ext2Detect false (oneFileImage 15) = .ok p ∧
    ¬ SparseKeeps (fun _ => 0#8) (fun _ _ => 0#8) p := by
  rcases oneFile_detected (.inl rfl) with ⟨p, detected, one⟩
  refine ⟨p, detected, ?_⟩
  rintro ⟨st', run', keeps⟩
  rcases ext2DoSparse_raw (fun _ => 0#8) (fun _ _ => 0#8) (ext2Detect_accepted detected) with ⟨st, run, success, raw⟩
  cases run.symm.trans run'
  have pass := oneFile_pass (.inl rfl) detected one
  have kept := (keeps (success.mpr pass)).1 12 6 (oneFile_used (.inl rfl) one) (oneFile_refers (.inl rfl) one)
  rcases (raw pass 6).mp kept with ⟨-, ⟨layout, member, covers⟩ | ⟨ino, scanned, compared, marked⟩⟩
  · have bound := oneFile_layouts (.inl rfl) detected one member
    have inside : 6 < layout.startBlock + layout.lenBlock := covers.2
    omega
  · exact ext2WhohasBlkno_ne_none_iff.mpr ⟨ino, scanned, compared, .inr marked⟩ (oneFile_missed one)

end ImgEditor
