import ImgEditor.Fs.SparseChunk
import ImgEditor.Fs.XfsDetect

namespace ImgEditor

open Storage

structure XfsAllocRec where
  startblock : Nat
  blockcount : Nat

def bbNumrecs (b : List Byte) : XfsM Nat := beField b 6 2

/-- The records stand behind the magic, level, count and `struct xfs_btree_block_shdr`. -/
def xfsBtreeBlockGetData : Nat := 8 + 48

def xfsAllocRec (bnobt : List Byte) (i : Nat) : XfsM XfsAllocRec := do
  let startblock ← beField bnobt (xfsBtreeBlockGetData + 8 * i) 4
  let blockcount ← beField bnobt (xfsBtreeBlockGetData + 8 * i + 4) 4
  return ⟨startblock, blockcount⟩

/-- The inner loop of `xfs_do_sparse` from record `i` on; `freeblks` is a `uint32_t`. -/
def xfsMarkFree (bnobt : List Byte) (blkBase i : Nat) (b : Bitmask) (freeblks : Nat) : Nat → XfsM (Bitmask × Nat)
  | 0 => return (b, freeblks)
  | count + 1 => do
    let ar ← xfsAllocRec bnobt i
    let absBlk := (blkBase + ar.startblock) % 2^32
    let (ret, b) := b.setBits absBlk ar.blockcount
    if ret < 0 then throw .error
    xfsMarkFree bnobt blkBase (i + 1) b ((freeblks + ar.blockcount) % 2^32) count

def xfsMarkAg (xfs : XfsEditor) (agIdx : Nat) (b : Bitmask) : XfsM Bitmask :=
  match xfs.ags[agIdx]? with
  | none => throw .fault
  | some ag =>
    let blkBase := agIdx * xfs.agBlocks % 2^32
    match ag.bnobt with
    | none => return b
    | some bnobt => do
      let numrecs ← bbNumrecs bnobt
      let (b, freeblks) ← xfsMarkFree bnobt blkBase 0 b 0 numrecs
      let marked ← agfFreeblks ag.agf
      if freeblks ≠ marked then throw .error
      return b

def xfsMarkAgs (xfs : XfsEditor) (agIdx : Nat) (b : Bitmask) : Nat → XfsM Bitmask
  | 0 => return b
  | count + 1 => do
    let b ← xfsMarkAg xfs agIdx b
    xfsMarkAgs xfs (agIdx + 1) b count

/-- `xfs_do_sparse` up to its call of `android_sparse_finish`: what it adds to the sparse image. -/
def xfsSparseInput (xfs : XfsEditor) : XfsM (Option AndroidSparseInput) :=
  match xfs.ags[0]? with
  | none => throw .fault
  | some ag => do
    let dblocks ← sbDblocks ag.sb
    let b ← xfsMarkAgs xfs 0 (allocBitmask dblocks) xfs.agCount
    match b.not.foreachContinue with
    | none => return none
    | some runs =>
      let input := androidSparseAddChunks (androidSparseInit xfs.blockSize dblocks) runs
      if input.error ≠ 0 then throw .error
      return some input

/-- `xfs_do_sparse`; the target is the file it has just created. `none` stands for a loop that does not end. -/
def xfsDoSparse (junk : Nat → Byte) (xfs : XfsEditor) : XfsM (Option (SparseFinish Fd)) := do
  match ← xfsSparseInput xfs with
  | none => return none
  | some input =>
    return androidSparseFinish input Fd.created (xfsWriteSparseChunk junk xfs.blockSize) xfs.fd

/-! ## What the roots record -/

def xfsRecordsFrom (bnobt : List Byte) (i count : Nat) : List XfsAllocRec :=
  (List.range' i count).filterMap fun j => (xfsAllocRec bnobt j).toOption

def xfsRecords (bnobt : List Byte) : List XfsAllocRec :=
  match bbNumrecs bnobt with
  | .ok numrecs => xfsRecordsFrom bnobt 0 numrecs
  | .error _ => []

def XfsRoot (xfs : XfsEditor) (agno : Nat) (ag : XfsAg) (bnobt : List Byte) : Prop :=
  agno < xfs.agCount ∧ xfs.ags[agno]? = some ag ∧ ag.bnobt = some bnobt

def XfsRecorded (xfs : XfsEditor) (agno : Nat) (r : XfsAllocRec) : Prop :=
  ∃ ag bnobt, XfsRoot xfs agno ag bnobt ∧ r ∈ xfsRecords bnobt

def XfsAllocRec.Covers (r : XfsAllocRec) (first k : Nat) : Prop := first ≤ k ∧ k < first + r.blockcount

def XfsFreeBlock (xfs : XfsEditor) (k : Nat) : Prop :=
  ∃ agno r, XfsRecorded xfs agno r ∧ r.Covers (agno * xfs.agBlocks + r.startblock) k

theorem xfsRecordsFrom_succ (bnobt : List Byte) (i count : Nat) {r : XfsAllocRec} (here : xfsAllocRec bnobt i = .ok r) :
    xfsRecordsFrom bnobt i (count + 1) = r :: xfsRecordsFrom bnobt (i + 1) count := by
  simp [xfsRecordsFrom, List.range'_succ, here, Except.toOption]

theorem xfsMarkFree_ok (bnobt : List Byte) (blkBase i : Nat) (b : Bitmask) (freeblks count : Nat) (width : freeblks < 2^32)
    {out : Bitmask × Nat} (passed : xfsMarkFree bnobt blkBase i b freeblks count = .ok out) :
    out.1.totalBits = b.totalBits ∧
      (∀ k, out.1.bit k = true ↔ b.bit k = true ∨ k < b.totalBits ∧
        ∃ r ∈ xfsRecordsFrom bnobt i count, r.Covers ((blkBase + r.startblock) % 2^32) k) ∧
      out.2 = (freeblks + ((xfsRecordsFrom bnobt i count).map XfsAllocRec.blockcount).sum) % 2^32 := by
  induction count generalizing i b freeblks with
  | zero =>
    rw [← Except.ok.inj passed]
    exact ⟨rfl, by simp [xfsRecordsFrom], (Nat.mod_eq_of_lt width).symm⟩
  | succ count ih =>
    rcases here : xfsAllocRec bnobt i with fail | r
    · simp [xfsMarkFree, here, bind, Except.bind] at passed
    · simp only [xfsMarkFree, here, bind, Except.bind] at passed
      split at passed
      · cases passed
      · have total := b.setBits_totalBits ((blkBase + r.startblock) % 2^32) r.blockcount
        obtain ⟨size, bits, sum⟩ := ih (i + 1) _ _ (Nat.mod_lt _ (by decide)) passed
        rw [xfsRecordsFrom_succ bnobt i count here]
        refine ⟨size.trans total, ?_, ?_⟩
        · intro k
          rw [bits, total, Bitmask.setBits_bit, List.exists_mem_cons_iff]
          unfold XfsAllocRec.Covers
          by_cases covered : (blkBase + r.startblock) % 2^32 ≤ k ∧ k < (blkBase + r.startblock) % 2^32 + r.blockcount
          · by_cases inside : k < b.totalBits
            · rw [if_pos ⟨covered.1, covered.2, inside⟩]
              exact iff_of_true (Or.inl rfl) (Or.inr ⟨inside, Or.inl covered⟩)
            · simp [inside]
          · have other : ¬ ((blkBase + r.startblock) % 2^32 ≤ k ∧
                k < (blkBase + r.startblock) % 2^32 + r.blockcount ∧ k < b.totalBits) :=
              fun whole => covered ⟨whole.1, whole.2.1⟩
            rw [if_neg other]
            simp only [covered, false_or]
        · rw [sum, List.map_cons, List.sum_cons, Nat.mod_add_mod, Nat.add_assoc]

theorem xfsMarkAg_ok (xfs : XfsEditor) (agIdx : Nat) (b out : Bitmask) (inside : agIdx < xfs.agCount)
    (passed : xfsMarkAg xfs agIdx b = .ok out) :
    out.totalBits = b.totalBits ∧
      (∀ k, out.bit k = true ↔ b.bit k = true ∨ k < b.totalBits ∧
        ∃ r, XfsRecorded xfs agIdx r ∧ r.Covers ((agIdx * xfs.agBlocks % 2^32 + r.startblock) % 2^32) k) ∧
      ∀ ag bnobt, XfsRoot xfs agIdx ag bnobt →
        agfFreeblks ag.agf = .ok (((xfsRecords bnobt).map XfsAllocRec.blockcount).sum % 2^32) := by
  unfold xfsMarkAg at passed
  rcases found : xfs.ags[agIdx]? with _ | ag
  · rw [found] at passed
    cases passed
  · simp only [found] at passed
    rcases root : ag.bnobt with _ | bnobt
    · simp only [root] at passed
      rw [← Except.ok.inj passed]
      have none : ∀ ag' bnobt, ¬ XfsRoot xfs agIdx ag' bnobt := by
        rintro ag' bnobt ⟨_, same, there⟩
        rw [found] at same
        rw [← Option.some.inj same, root] at there
        cases there
      refine ⟨rfl, ?_, fun ag' bnobt there => absurd there (none ag' bnobt)⟩
      intro k
      constructor
      · exact Or.inl
      · rintro (set | ⟨_, _, ⟨ag', bnobt, there, _⟩, _⟩)
        · exact set
        · exact absurd there (none ag' bnobt)
    · simp only [root, bind, Except.bind] at passed
      have here : XfsRoot xfs agIdx ag bnobt := ⟨inside, found, root⟩
      have only : ∀ ag' bnobt', XfsRoot xfs agIdx ag' bnobt' → ag' = ag ∧ bnobt' = bnobt := by
        rintro ag' bnobt' ⟨_, same, there⟩
        rw [found] at same
        obtain rfl := Option.some.inj same
        rw [root] at there
        exact ⟨rfl, (Option.some.inj there).symm⟩
      rcases numrecs : bbNumrecs bnobt with _ | n
      · rw [numrecs] at passed
        cases passed
      simp only [numrecs] at passed
      have records : xfsRecords bnobt = xfsRecordsFrom bnobt 0 n := by simp [xfsRecords, numrecs]
      rcases marked : xfsMarkFree bnobt (agIdx * xfs.agBlocks % 2^32) 0 b 0 n with _ | pair
      · rw [marked] at passed
        cases passed
      obtain ⟨size, bits, sum⟩ := xfsMarkFree_ok _ _ _ _ _ _ (by decide) marked
      simp only [marked] at passed
      rcases stored : agfFreeblks ag.agf with _ | freeblks
      · rw [stored] at passed
        cases passed
      simp only [stored] at passed
      split at passed
      · cases passed
      rename_i equal
      rw [← Except.ok.inj passed]
      refine ⟨size, ?_, ?_⟩
      · intro k
        rw [bits, ← records]
        constructor
        · rintro (set | ⟨bound, r, member, covers⟩)
          · exact Or.inl set
          · exact Or.inr ⟨bound, r, ⟨ag, bnobt, here, member⟩, covers⟩
        · rintro (set | ⟨bound, r, ⟨ag', bnobt', there, member⟩, covers⟩)
          · exact Or.inl set
          · rw [(only ag' bnobt' there).2] at member
            exact Or.inr ⟨bound, r, member, covers⟩
      · intro ag' bnobt' there
        rw [(only ag' bnobt' there).1, (only ag' bnobt' there).2, stored, records]
        rw [Nat.zero_add] at sum
        rw [← sum, Decidable.not_not.mp equal]

theorem xfsMarkAgs_ok (xfs : XfsEditor) (agIdx count : Nat) (b out : Bitmask) (inside : agIdx + count ≤ xfs.agCount)
    (passed : xfsMarkAgs xfs agIdx b count = .ok out) :
    out.totalBits = b.totalBits ∧
      (∀ k, out.bit k = true ↔ b.bit k = true ∨ k < b.totalBits ∧ ∃ agno r, agIdx ≤ agno ∧ agno < agIdx + count ∧
        XfsRecorded xfs agno r ∧ r.Covers ((agno * xfs.agBlocks % 2^32 + r.startblock) % 2^32) k) ∧
      ∀ agno ag bnobt, agIdx ≤ agno → agno < agIdx + count → XfsRoot xfs agno ag bnobt →
        agfFreeblks ag.agf = .ok (((xfsRecords bnobt).map XfsAllocRec.blockcount).sum % 2^32) := by
  induction count generalizing agIdx b with
  | zero =>
    rw [← Except.ok.inj passed]
    refine ⟨rfl, ?_, fun _ _ _ lower upper => by omega⟩
    intro k
    constructor
    · exact Or.inl
    · rintro (set | ⟨_, _, _, lower, upper, _⟩)
      · exact set
      · omega
  | succ count ih =>
    rcases here : xfsMarkAg xfs agIdx b with _ | mid
    · simp [xfsMarkAgs, here, bind, Except.bind] at passed
    simp only [xfsMarkAgs, here, bind, Except.bind] at passed
    obtain ⟨size, bits, sum⟩ := xfsMarkAg_ok xfs agIdx b mid (by omega) here
    obtain ⟨size', bits', sums⟩ := ih (agIdx + 1) mid (by omega) passed
    refine ⟨size'.trans size, ?_, ?_⟩
    · intro k
      rw [bits', bits, size]
      constructor
      · rintro ((set | ⟨bound, r, recorded, covers⟩) | ⟨bound, agno, r, lower, upper, recorded, covers⟩)
        · exact Or.inl set
        · exact Or.inr ⟨bound, agIdx, r, Nat.le_refl _, by omega, recorded, covers⟩
        · exact Or.inr ⟨bound, agno, r, by omega, by omega, recorded, covers⟩
      · rintro (set | ⟨bound, agno, r, lower, upper, recorded, covers⟩)
        · exact Or.inl (Or.inl set)
        · by_cases first : agno = agIdx
          · subst first
            exact Or.inl (Or.inr ⟨bound, r, recorded, covers⟩)
          · exact Or.inr ⟨bound, agno, r, by omega, by omega, recorded, covers⟩
    · intro agno ag bnobt lower upper root
      by_cases first : agno = agIdx
      · subst first
        exact sum ag bnobt root
      · exact sums agno ag bnobt (by omega) (by omega) root

def XfsMarkedBlock (xfs : XfsEditor) (k : Nat) : Prop :=
  ∃ agno r, XfsRecorded xfs agno r ∧ r.Covers ((agno * xfs.agBlocks % 2^32 + r.startblock) % 2^32) k

/-- The image has a RAW chunk for a block exactly when no root records it as free, and every root accounts for the
free blocks of its AGF. -/
structure XfsSparseExact (junk : Nat → Byte) (xfs : XfsEditor) (dblocks : Nat) : Prop where
  raw : ∃ st used chunks, xfsDoSparse junk xfs = .ok (some st) ∧
    SparsePartition True xfs.blockSize dblocks used (SourceOf xfs.fd.file xfs.fd.start)
      (xfsWriteSparseChunk junk xfs.blockSize) st.fdTarget.file chunks ∧
    ∀ k, k < dblocks → (used k = true ↔ ¬ XfsFreeBlock xfs k)
  sums : ∀ agno ag bnobt, XfsRoot xfs agno ag bnobt →
    agfFreeblks ag.agf = .ok ((xfsRecords bnobt).map XfsAllocRec.blockcount).sum

/-- No 32 bit sum wraps to any effect: a block that an extent reaches only after its block number has wrapped is free
anyway, and the lengths of a root add up below 2^32. -/
structure XfsSparseFits (xfs : XfsEditor) (dblocks : Nat) : Prop where
  placed : ∀ agno r k, XfsRecorded xfs agno r → 2^32 ≤ agno * xfs.agBlocks + r.startblock →
    r.Covers (agno * xfs.agBlocks + r.startblock - 2^32) k → k < dblocks → XfsFreeBlock xfs k
  sums : ∀ agno ag bnobt, XfsRoot xfs agno ag bnobt → ((xfsRecords bnobt).map XfsAllocRec.blockcount).sum < 2^32

theorem xfsDoSparse_marked (junk : Nat → Byte) (xfs : XfsEditor) (dblocks : Nat) (first : XfsAg)
    (found : xfs.ags[0]? = some first) (blocks : sbDblocks first.sb = .ok dblocks) (small : dblocks < 2^31)
    (width : xfs.blockSize ≤ 2^31) {result : Option AndroidSparseInput}
    (reached : xfsSparseInput xfs = .ok result) :
    (∃ st used chunks, xfsDoSparse junk xfs = .ok (some st) ∧
      SparsePartition True xfs.blockSize dblocks used (SourceOf xfs.fd.file xfs.fd.start)
        (xfsWriteSparseChunk junk xfs.blockSize) st.fdTarget.file chunks ∧
      ∀ k, k < dblocks → (used k = true ↔ ¬ XfsMarkedBlock xfs k)) ∧
    ∀ agno ag bnobt, XfsRoot xfs agno ag bnobt →
      agfFreeblks ag.agf = .ok (((xfsRecords bnobt).map XfsAllocRec.blockcount).sum % 2^32) := by
  have sparse : xfsSparseInput xfs = .ok result := reached
  simp only [xfsSparseInput, found, blocks, bind, Except.bind] at reached
  rcases marked : xfsMarkAgs xfs 0 (allocBitmask dblocks) xfs.agCount with _ | b
  · rw [marked] at reached
    cases reached
  simp only [marked] at reached
  obtain ⟨size, bits, sums⟩ := xfsMarkAgs_ok xfs 0 xfs.agCount _ b (by omega) marked
  have total : b.not.totalBits = dblocks := size
  have range : b.not.IntRange := by
    intro k bound _
    omega
  obtain ⟨runs, visited, bounds, cover⟩ := b.not.foreachContinue_spec range
  simp only [visited] at reached
  obtain ⟨done, input, last, same⟩ := androidSparseAddChunks_marks xfs.blockSize
    (fun r member => Or.inr (by
      have bound := bounds r member
      rw [total] at bound
      exact bound))
  have clean : (androidSparseAddChunks (androidSparseInit xfs.blockSize dblocks) runs).error = 0 := by
    rw [input]
    rfl
  rw [if_neg (by simp [clean])] at reached
  rw [← Except.ok.inj reached] at sparse
  obtain ⟨st, finished, outcome⟩ := androidSparseFinish_image True
    (writeSparseChunk_confined junk xfs.blockSize xfs.fd.file xfs.fd.start)
    (androidSparseAddChunks (androidSparseInit xfs.blockSize dblocks) runs) done Fd.created xfs.fd
    (by rw [input]) clean (by rw [input]; rfl) (by rw [input, last]; rfl)
    (by intro k bound _; omega) (by omega) rfl ⟨rfl, rfl⟩ (fun _ => Nat.zero_le _)
  have run : xfsDoSparse junk xfs = .ok (some st) := by
    simp only [xfsDoSparse, sparse, bind, Except.bind]
    exact congrArg _ finished
  refine ⟨?_, fun agno ag bnobt root => sums agno ag bnobt (Nat.zero_le _) (by have := root.1; omega) root⟩
  rcases outcome with ⟨negative, _, _, _, _, failed⟩ | ⟨_, chunks, image⟩
  · rw [failed, writeSparseChunk_ret] at negative
    omega
  · rw [last] at image
    refine ⟨st, done.bit, chunks, run, image.partition (by omega) (by omega), ?_⟩
    intro k inside
    rw [same]
    have added : addedBlocks runs k = true ↔ b.not.bit k = true := by
      rw [cover k (by omega), addedBlocks, List.any_eq_true]
      simp only [decide_eq_true_eq]
    rw [added, b.not_bit (by rw [size]; exact inside)]
    have value := bits k
    rw [Bitmask.allocBitmask_bit] at value
    have clear : b.bit k = true ↔ XfsMarkedBlock xfs k := by
      rw [value]
      constructor
      · rintro (impossible | ⟨_, agno, r, _, _, recorded, covers⟩)
        · cases impossible
        · exact ⟨agno, r, recorded, covers⟩
      · rintro ⟨agno, r, recorded, covers⟩
        obtain ⟨ag, bnobt, root, member⟩ := recorded
        exact Or.inr ⟨inside, agno, r, Nat.zero_le _, by have := root.1; omega, ⟨ag, bnobt, root, member⟩, covers⟩
    rw [← clear]
    cases b.bit k <;> simp

theorem xfsAllocRec_startblock_lt {bnobt : List Byte} {r : XfsAllocRec} (member : r ∈ xfsRecords bnobt) :
    r.startblock < 2^32 := by
  unfold xfsRecords at member
  split at member
  · simp only [xfsRecordsFrom, List.mem_filterMap] at member
    obtain ⟨j, _, here⟩ := member
    simp only [xfsAllocRec, bind, Except.bind] at here
    rcases start : beField bnobt (xfsBtreeBlockGetData + 8 * j) 4 with _ | startblock
    · simp [start, Except.toOption] at here
    · simp only [start] at here
      split at here
      · cases here
      · rw [← Option.some.inj here]
        exact beField_lt start
  · cases member

/-- The 32 bit sums put an extent at its exact place, or 2^32 blocks below it. -/
theorem XfsRecorded.placed {xfs : XfsEditor} {agno : Nat} {r : XfsAllocRec} (recorded : XfsRecorded xfs agno r)
    (span : xfs.agCount * xfs.agBlocks < 2^31) :
    (agno * xfs.agBlocks % 2^32 + r.startblock) % 2^32 =
      if 2^32 ≤ agno * xfs.agBlocks + r.startblock then agno * xfs.agBlocks + r.startblock - 2^32
      else agno * xfs.agBlocks + r.startblock := by
  obtain ⟨ag, bnobt, root, member⟩ := recorded
  have start := xfsAllocRec_startblock_lt member
  have base : agno * xfs.agBlocks ≤ xfs.agCount * xfs.agBlocks := Nat.mul_le_mul_right _ (Nat.le_of_lt root.1)
  generalize agno * xfs.agBlocks = first at *
  split <;> omega

/-- The RAW blocks and the free counts are exact if and only if no 32 bit sum wraps to any effect. -/
theorem xfsDoSparse_exact_iff (junk : Nat → Byte) (fd : Fd) (xfs : XfsEditor) (detected : xfsDetect fd = .ok xfs)
    (dblocks : Nat) (first : XfsAg) (found : xfs.ags[0]? = some first) (blocks : sbDblocks first.sb = .ok dblocks)
    (small : dblocks < 2^31) (span : xfs.agCount * xfs.agBlocks < 2^31) (result : Option AndroidSparseInput)
    (reached : xfsSparseInput xfs = .ok result) :
    XfsSparseExact junk xfs dblocks ↔ XfsSparseFits xfs dblocks := by
  obtain ⟨⟨st, used, chunks, run, partition, marked⟩, counted⟩ := xfsDoSparse_marked junk xfs dblocks first found
    blocks small (xfsDetect_ok detected).2 reached
  constructor
  · rintro ⟨⟨st', used', chunks', run', partition', exact'⟩, sums⟩
    rw [run] at run'
    obtain rfl := Option.some.inj (Except.ok.inj run')
    constructor
    · intro agno r k recorded wrapped covers inside
      have dropped : XfsMarkedBlock xfs k := by
        refine ⟨agno, r, recorded, ?_⟩
        rw [recorded.placed span, if_pos wrapped]
        exact covers
      have clear : ¬ used k = true := fun set => (marked k inside).mp set dropped
      rw [partition.added_eq partition' inside, exact' k inside, Classical.not_not] at clear
      exact clear
    · intro agno ag bnobt root
      exact beField_lt (sums agno ag bnobt root)
  · rintro ⟨placed, fits⟩
    constructor
    · refine ⟨st, used, chunks, run, partition, fun k inside => ?_⟩
      have same : XfsMarkedBlock xfs k ↔ XfsFreeBlock xfs k := by
        constructor
        · rintro ⟨agno, r, recorded, covers⟩
          rw [recorded.placed span] at covers
          split at covers
          · rename_i wrapped
            exact placed agno r k recorded wrapped covers inside
          · exact ⟨agno, r, recorded, covers⟩
        · rintro ⟨agno, r, recorded, covers⟩
          refine ⟨agno, r, recorded, ?_⟩
          -- an extent that covers a block of the file system has not wrapped
          have below : ¬ 2^32 ≤ agno * xfs.agBlocks + r.startblock := by
            have lower := covers.1
            omega
          rw [recorded.placed span, if_neg below]
          exact covers
      rw [marked k inside, same]
    · intro agno ag bnobt root
      rw [counted agno ag bnobt root, Nat.mod_eq_of_lt (fits agno ag bnobt root)]

/-- The sectors of an AG: a superblock for 64 blocks of 64 bytes in two AGs, then AGF, AGI and AGFL. -/
def xfsSparseSectors (f : File) (pos : Nat) : File :=
  let f := f.writeAt pos (be32Words [0x58465342, 64, 0, 64])
  let f := f.writeAt (pos + 84) (be32Words [32, 2])
  let f := f.writeAt (pos + 102) [2, 0, 2, 0, 0, 8]
  let f := f.writeAt (pos + 120) [6, 9, 9, 3]
  let f := f.writeAt (pos + 512) (be32Words [0x58414746])
  let f := f.writeAt (pos + 1024) (be32Words [0x58414749])
  f.writeAt (pos + 1536) (be32Words [0x5841464c])

/-- AG 1 has a free space root, at its block 25, with one record for a single block. -/
def xfsSparseImage (startblock : BitVec 32) : File :=
  let f := xfsSparseSectors (xfsSparseSectors .empty 0) 2048
  let f := f.writeAt (2560 + 16) (be32Words [25])
  let f := f.writeAt (2560 + 52) (be32Words [1])
  let f := f.writeAt 3648 (be32Words [0x41423342, 1])
  let f := f.writeAt (3648 + 56) (be32Words [startblock, 1])
  f.writeAt 4095 [0]

/-- A loaded image: its block numbers, the start and length of the records of each root, whether it is added in full. -/
structure XfsSparseLoaded where
  dblocks : Option Nat
  agCount : Nat
  agBlocks : Nat
  roots : List (Option (List (Nat × Nat)))
  added : Bool
deriving DecidableEq

def xfsSparseRoot (ag : XfsAg) : Option (List (Nat × Nat)) :=
  ag.bnobt.map fun bnobt => (xfsRecords bnobt).map fun r => (r.startblock, r.blockcount)

def xfsSparseLoaded (image : File) : Option XfsSparseLoaded :=
  match xfsDetect ⟨image, 0, 0⟩ with
  | .error _ => none
  | .ok xfs => some ⟨xfs.ags[0]?.bind fun ag => (sbDblocks ag.sb).toOption, xfs.agCount, xfs.agBlocks,
      xfs.ags.map xfsSparseRoot, (xfsSparseInput xfs).toOption.isSome⟩

theorem xfsSparseLoaded_some {image : File} {dblocks agCount agBlocks : Nat} {roots : List (Option (List (Nat × Nat)))}
    (loaded : xfsSparseLoaded image = some ⟨some dblocks, agCount, agBlocks, roots, true⟩) :
    ∃ xfs first result, xfsDetect ⟨image, 0, 0⟩ = .ok xfs ∧ xfs.ags[0]? = some first ∧
      sbDblocks first.sb = .ok dblocks ∧ xfs.agCount = agCount ∧ xfs.agBlocks = agBlocks ∧
      xfsSparseInput xfs = .ok result ∧ xfs.ags.map xfsSparseRoot = roots := by
  unfold xfsSparseLoaded at loaded
  split at loaded
  · cases loaded
  · rename_i xfs detected
    simp only [Option.some.injEq, XfsSparseLoaded.mk.injEq] at loaded
    obtain ⟨blocks, count, size, roots, added⟩ := loaded
    rcases found : xfs.ags[0]? with _ | first
    · rw [found] at blocks
      cases blocks
    rcases field : sbDblocks first.sb with _ | n
    · simp [found, field, Except.toOption] at blocks
    rcases input : xfsSparseInput xfs with _ | result
    · simp [input, Except.toOption] at added
    simp only [found, Option.bind_some, field, Except.toOption, Option.some.injEq] at blocks
    exact ⟨xfs, first, result, detected, found, by rw [field, blocks], count, size, input, roots⟩

theorem XfsRoot.listed {xfs : XfsEditor} {agno : Nat} {ag : XfsAg} {bnobt : List Byte} (root : XfsRoot xfs agno ag bnobt) :
    (xfs.ags.map xfsSparseRoot)[agno]? = some (some ((xfsRecords bnobt).map fun r => (r.startblock, r.blockcount))) := by
  rw [List.getElem?_map, root.2.1, Option.map_some, xfsSparseRoot, root.2.2, Option.map_some]

theorem xfsSparseImage_root {xfs : XfsEditor} {startblock agno : Nat} {ag : XfsAg} {bnobt : List Byte}
    (roots : xfs.ags.map xfsSparseRoot = [none, some [(startblock, 1)]]) (root : XfsRoot xfs agno ag bnobt) :
    agno = 1 ∧ xfsRecords bnobt = [⟨startblock, 1⟩] := by
  have listed := root.listed
  rw [roots] at listed
  match agno with
  | 0 => cases listed
  | 1 =>
    simp only [List.getElem?_cons_succ, List.getElem?_cons_zero, Option.some.injEq] at listed
    refine ⟨rfl, ?_⟩
    match records : xfsRecords bnobt with
    | [] => simp [records] at listed
    | [r] =>
      simp only [records, List.map_cons, List.map_nil, List.cons.injEq, Prod.mk.injEq, and_true] at listed
      rw [listed.1, listed.2]
    | _ :: _ :: _ => simp [records] at listed
  | agno + 2 => cases listed

theorem xfsDoSparse_exact_iff_small : ∃ xfs, xfsDetect ⟨xfsSparseImage 16, 0, 0⟩ = .ok xfs ∧
    ∀ junk, XfsSparseExact junk xfs 64 := by
  have loaded : xfsSparseLoaded (xfsSparseImage 16) = some ⟨some 64, 2, 32, [none, some [(16, 1)]], true⟩ := by
    decide +kernel
  obtain ⟨xfs, first, result, detected, found, blocks, count, size, reached, roots⟩ := xfsSparseLoaded_some loaded
  refine ⟨xfs, detected, fun junk => ?_⟩
  rw [xfsDoSparse_exact_iff junk _ xfs detected 64 first found blocks (by decide) (by rw [count, size]; decide) result
    reached]
  constructor
  · rintro agno r k ⟨ag, bnobt, root, member⟩ wrapped
    obtain ⟨rfl, records⟩ := xfsSparseImage_root roots root
    rw [records, List.mem_singleton] at member
    rw [member, size] at wrapped
    exact absurd wrapped (by decide)
  · intro agno ag bnobt root
    rw [(xfsSparseImage_root roots root).2]
    decide

/-- The one record wraps to block 0: the superblock is left out of the sparse image. -/
theorem xfsDoSparse_exact_wrapped : ∃ xfs first result, xfsDetect ⟨xfsSparseImage 0xffffffe0, 0, 0⟩ = .ok xfs ∧
    xfs.ags[0]? = some first ∧ sbDblocks first.sb = .ok 64 ∧ xfs.agCount * xfs.agBlocks = 64 ∧
    xfsSparseInput xfs = .ok result ∧ ∀ junk, ¬ XfsSparseExact junk xfs 64 := by
  have loaded : xfsSparseLoaded (xfsSparseImage 0xffffffe0) =
      some ⟨some 64, 2, 32, [none, some [(0xffffffe0, 1)]], true⟩ := by decide +kernel
  obtain ⟨xfs, first, result, detected, found, blocks, count, size, reached, roots⟩ := xfsSparseLoaded_some loaded
  refine ⟨xfs, first, result, detected, found, blocks, by rw [count, size], reached, fun junk exact => ?_⟩
  obtain ⟨⟨st, used, chunks, run, partition, marked⟩, _⟩ := xfsDoSparse_marked junk xfs 64 first found blocks
    (by decide) (xfsDetect_ok detected).2 reached
  obtain ⟨st', used', chunks', run', partition', exact'⟩ := exact.raw
  rw [run] at run'
  obtain rfl := Option.some.inj (Except.ok.inj run')
  have only : ¬ XfsFreeBlock xfs 0 := by
    rintro ⟨agno, r, ⟨ag, bnobt, root, member⟩, covers⟩
    obtain ⟨rfl, records⟩ := xfsSparseImage_root roots root
    rw [records, List.mem_singleton] at member
    rw [member, size] at covers
    exact absurd covers.1 (by decide)
  have kept : used 0 = true := by
    rw [partition.added_eq partition' (by decide), exact' 0 (by decide)]
    exact only
  apply (marked 0 (by decide)).mp kept
  have second : (xfs.ags.map xfsSparseRoot)[1]? = some (some [(0xffffffe0, 1)]) := by
    rw [roots]
    rfl
  rcases there : xfs.ags[1]? with _ | ag
  · simp [there] at second
  rcases stored : ag.bnobt with _ | bnobt
  · simp [there, xfsSparseRoot, stored] at second
  have root : XfsRoot xfs 1 ag bnobt := ⟨by rw [count]; decide, there, stored⟩
  have records := (xfsSparseImage_root roots root).2
  refine ⟨1, ⟨0xffffffe0, 1⟩, ⟨ag, bnobt, root, by rw [records]; exact List.mem_singleton_self _⟩, ?_⟩
  rw [size]
  exact ⟨by decide, by decide⟩

end ImgEditor
