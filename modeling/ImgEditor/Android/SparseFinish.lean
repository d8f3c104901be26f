import ImgEditor.Android.SparseLayout

namespace ImgEditor

open Storage

section Finish

variable {σ : Type} {fresh : Prop} {blksz : Nat} {I : σ → Prop} {writeCb : AndroidSparseWrite σ}

/-- Space the next run may need beyond its share of the blocks still to come: the gap in front of a
    run pays for both headers, so only a run with no gap is charged. -/
def headerSlack (bitmask : Bitmask) (lo : Nat) : Nat :=
  if lo < bitmask.totalBits ∧ bitmask.bit lo = true then 12 else 0

def blockLimit : Nat := 2^31 - 1

theorem nextRuns_room (bitmask : Bitmask) (blksz lo k : Nat) (lower : lo ≤ k) (inside : k < bitmask.totalBits)
    (set : bitmask.bit k = true) (last : bitmask.runEnd k ≤ blockLimit) :
    chunksSize blksz (nextRuns lo k (bitmask.runEnd k)) + headerSlack bitmask (bitmask.runEnd k) +
        (blockLimit - bitmask.runEnd k) * max blksz 24 ≤
      headerSlack bitmask lo + (blockLimit - lo) * max blksz 24 := by
  obtain ⟨after, within, value, clear⟩ := bitmask.runEnd_spec inside set
  generalize bitmask.runEnd k = e at *
  have ended : headerSlack bitmask e = 0 := by
    unfold headerSlack
    rw [if_neg]
    rintro ⟨bound, still⟩
    rw [clear bound] at still
    contradiction
  have parts : (blockLimit - lo) * max blksz 24 =
      (k - lo) * max blksz 24 + (e - k) * max blksz 24 + (blockLimit - e) * max blksz 24 := by
    rw [← Nat.add_mul, ← Nat.add_mul]
    congr 1
    omega
  have data : (e - k) * blksz ≤ (e - k) * max blksz 24 := Nat.mul_le_mul_left _ (Nat.le_max_left _ _)
  have rawSize : chunkSize blksz ⟨k, e - k, true⟩ = 12 + (e - k) * blksz := rfl
  rw [ended, parts]
  by_cases adjacent : lo = k
  · subst adjacent
    have slack : headerSlack bitmask lo = 12 := by
      unfold headerSlack
      rw [if_pos ⟨inside, set⟩]
    simp only [nextRuns, ↓reduceIte, List.nil_append, chunksSize_cons, chunksSize_nil, rawSize, slack]
    omega
  · have gap : 1 * 24 ≤ (k - lo) * max blksz 24 :=
      Nat.mul_le_mul (by omega) (Nat.le_max_right _ _)
    have gapSize : chunkSize blksz ⟨lo, k - lo, false⟩ = 12 := rfl
    simp only [nextRuns, adjacent, ↓reduceIte, chunksSize_append, chunksSize_cons, chunksSize_nil,
      rawSize, gapSize]
    omega

theorem nextRuns_tiles (bitmask : Bitmask) {lo k : Nat} {rest : List Run}
    (found : nextIndex bitmask.bit bitmask.totalBits lo = some k)
    (tail : Tiles bitmask.bit bitmask.totalBits (bitmask.runEnd k) rest) :
    Tiles bitmask.bit bitmask.totalBits lo (nextRuns lo k (bitmask.runEnd k) ++ rest) := by
  obtain ⟨lower, inside, set, before⟩ := nextIndex_some found
  obtain ⟨after, within, value, clear⟩ := bitmask.runEnd_spec inside set
  have stop : Run.stop ⟨k, bitmask.runEnd k - k, true⟩ = bitmask.runEnd k := by
    simp only [Run.stop]
    omega
  have run : Tiles bitmask.bit bitmask.totalBits k (⟨k, bitmask.runEnd k - k, true⟩ :: rest) := by
    refine ⟨rfl, by simp only; omega, by rw [stop]; exact within, ?_, ?_, by rw [stop]; exact tail⟩
    · rw [stop]
      exact value
    · rw [stop]
      intro inner
      simp [clear inner]
  by_cases adjacent : lo = k
  · simp only [nextRuns, adjacent, ↓reduceIte, List.nil_append, List.singleton_append]
    exact run
  · have gapStop : Run.stop ⟨lo, k - lo, false⟩ = k := by
      simp only [Run.stop]
      omega
    simp only [nextRuns, adjacent, ↓reduceIte, List.cons_append, List.nil_append]
    refine ⟨rfl, by simp only; omega, by rw [gapStop]; omega, ?_, ?_, by rw [gapStop]; exact run⟩
    · rw [gapStop]
      exact before
    · rw [gapStop]
      simp [set]

def lastRuns (total lo : Nat) : List Run := if lo < total then [⟨lo, total - lo, false⟩] else []

theorem lastRuns_tiles (p : Nat → Bool) {total lo : Nat} (within : lo ≤ total)
    (none : nextIndex p total lo = none) : Tiles p total lo (lastRuns total lo) := by
  unfold lastRuns
  by_cases rest : lo < total
  · have stop : Run.stop ⟨lo, total - lo, false⟩ = total := by
      simp only [Run.stop]
      omega
    rw [if_pos rest]
    refine ⟨rfl, by simp only; omega, by rw [stop], ?_, ?_, by rw [stop]; rfl⟩
    · rw [stop]
      intro i lower upper
      exact nextIndex_none none lower upper
    · rw [stop]
      intro impossible
      omega
  · rw [if_neg rest]
    exact Nat.le_antisymm within (Nat.le_of_not_lt rest)

theorem sparseFinishLoop_emitted (confined : Confined blksz I writeCb) (bitmask : Bitmask)
    (range : bitmask.IntRange) (fuel : Nat)
    (it : Bitmask.ContinueIterator) (st : SparseFinish σ) (enough : bitmask.totalBits - st.blk < fuel)
    (here : bitmask.IteratorAt it st.blk) (within : st.blk ≤ bitmask.totalBits)
    (start : st.fdTarget.start = 0) (valid : I st.privateData)
    (tight : fresh → st.fdTarget.file.size ≤ st.offset)
    (room : st.offset + (headerSlack bitmask st.blk + (blockLimit - st.blk) * max blksz 24) < 2^63 - 64) :
    ∃ failed st', sparseFinishLoop bitmask blksz writeCb fuel it st = some (failed, st') ∧
      (failed = true → st'.ret < 0 ∧ ∃ fd chunk s, I s ∧ st'.ret = (writeCb fd chunk s).1) ∧
      (failed = false → st'.blk ≤ bitmask.totalBits ∧
        (0 ≤ st'.ret ∨ st'.ret = st.ret ∧ nextIndex bitmask.bit bitmask.totalBits st.blk = none) ∧
        st'.offset < 2^63 - 64 ∧
        ∃ runs, Emitted fresh blksz I writeCb st st' runs ∧
          Tiles bitmask.bit bitmask.totalBits st.blk (runs ++ lastRuns bitmask.totalBits st'.blk)) := by
  induction fuel generalizing it st with
  | zero => omega
  | succ fuel ih =>
    unfold sparseFinishLoop
    cases found : nextIndex bitmask.bit bitmask.totalBits st.blk with
    | none =>
      simp only [Bitmask.IteratorAt, found] at here
      rw [if_pos here]
      refine ⟨false, st, rfl, by simp, fun _ => ⟨within, Or.inr ⟨rfl, rfl⟩, by omega, [], ?_, ?_⟩⟩
      · exact Emitted.refl st start valid tight
      · exact lastRuns_tiles bitmask.bit within found
    | some k =>
      obtain ⟨lower, inside, set, _⟩ := nextIndex_some found
      obtain ⟨after, ends, _, _⟩ := bitmask.runEnd_spec inside set
      have next := bitmask.continueNext_at it range found here
      have small := range k inside set
      have last := range (bitmask.runEnd k - 1) (by omega)
        ((bitmask.runEnd_spec inside set).2.2.1 _ (by omega) (by omega))
      have fits := nextRuns_room bitmask blksz st.blk k lower inside set (by unfold blockLimit; omega)
      simp only [Bitmask.IteratorAt, found] at here
      obtain ⟨first, count, _⟩ := here
      have nonnegative : ¬ it.start < 0 := by omega
      rw [if_neg nonnegative]
      have step := sparseFinishStep_emitted confined it st k (bitmask.runEnd k) first count lower after
        (by omega) start valid tight (by omega)
      generalize sparseFinishStep blksz writeCb it st = result at step
      obtain ⟨flag, st'⟩ := result
      obtain ⟨called, ⟨failed, negative⟩ | ⟨passed, positive, blk, emitted⟩⟩ := step
      · simp only at failed negative
        subst failed
        exact ⟨true, st', rfl, fun _ => ⟨negative, called⟩, by simp⟩
      · simp only at passed positive blk emitted
        subst passed
        have offset := emitted.offset
        obtain ⟨failed, final, run, stopped, finished⟩ := ih (bitmask.continueNext it) st'
          (by omega) (by rw [blk]; exact next) (by omega) emitted.start emitted.valid
          emitted.tight (by rw [blk]; omega)
        refine ⟨failed, final, run, stopped, fun ok => ?_⟩
        obtain ⟨bound, ret, remaining, runs, more, tiles⟩ := finished ok
        refine ⟨bound, Or.inl ?_, remaining, _, emitted.trans more, ?_⟩
        · rcases ret with good | ⟨same, _⟩
          · exact good
          · rw [same]
            exact positive
        · rw [blk] at tiles
          rw [List.append_assoc]
          exact nextRuns_tiles bitmask found tiles

def finishedHeader (blksz totalBlks totalChunks : Nat) : SparseHeader :=
  ⟨SPARSE_HEADER_MAGIC, 1, 0, 28, 12, blksz, totalBlks, totalChunks, 0⟩

/-- A complete sparse image: the header, then the chunks of `runs` without gaps between them. -/
structure SparseImage (fresh : Prop) (blksz totalBlks : Nat) (added : Nat → Bool) (I : σ → Prop)
    (writeCb : AndroidSparseWrite σ) (f : File) (runs : List Run) : Prop where
  tiles : Tiles added totalBlks 0 runs
  header : f.Holds 0 (finishedHeader blksz totalBlks runs.length).encode
  chunks : ChunksAt fresh blksz I writeCb f 28 runs
  addressable : 28 + chunksSize blksz runs < 2^63 - 32

theorem sparseFinishTail_emitted (blksz : Nat) (writeCb : AndroidSparseWrite σ) (st : SparseFinish σ) (totalBlks : Nat) (start : st.fdTarget.start = 0)
    (valid : I st.privateData) (tight : fresh → st.fdTarget.file.size ≤ st.offset)
    (bound : st.offset < 2^63) :
    ∃ mid, Emitted fresh blksz I writeCb st mid (lastRuns totalBlks st.blk) ∧
      (sparseFinishTail blksz totalBlks st).ret = st.ret ∧
      (sparseFinishTail blksz totalBlks st).fdTarget.file =
        mid.fdTarget.file.writeAt 0 (finishedHeader blksz totalBlks mid.totalChunks).encode := by
  unfold lastRuns
  by_cases rest : st.blk < totalBlks
  · have position : (st.fdTarget.fileseek st.offset).pos = st.offset := by
      rw [Fd.fileseek_pos _ _ (by omega), start, Nat.zero_add]
    have seek : Emitted fresh blksz I writeCb st _ [] := seek_emitted st start valid tight
    have last : Emitted fresh blksz I writeCb _ _ _ := dontcare_emitted
      { st with fdTarget := st.fdTarget.fileseek st.offset } (totalBlks - st.blk) st.blk seek.start
      position seek.valid seek.tight
    have joined := seek.trans last
    rw [List.nil_append] at joined
    rw [if_pos rest]
    refine ⟨_, joined, by simp [sparseFinishTail, rest], ?_⟩
    simp only [sparseFinishTail, rest, ↓reduceIte, Fd.write_file, Fd.fileseek_file, finishedHeader]
    rw [Fd.fileseek_pos _ _ (by rw [joined.start]; omega), joined.start]
  · rw [if_neg rest]
    refine ⟨st, Emitted.refl st start valid tight, by simp [sparseFinishTail, rest], ?_⟩
    simp only [sparseFinishTail, rest, ↓reduceIte, Fd.write_file, Fd.fileseek_file, finishedHeader]
    rw [Fd.fileseek_pos _ _ (by omega), start]

theorem Emitted.image {st st' : SparseFinish σ} {runs : List Run} {added : Nat → Bool} {totalBlks : Nat}
    (emitted : Emitted fresh blksz I writeCb st st' runs) (tiles : Tiles added totalBlks 0 runs)
    (offset : st.offset = 28) (none : st.totalChunks = 0) (room : st'.offset < 2^63 - 32) :
    SparseImage fresh blksz totalBlks added I writeCb
      (st'.fdTarget.file.writeAt 0 (finishedHeader blksz totalBlks st'.totalChunks).encode) runs where
  tiles := tiles
  header := by
    have count : st'.totalChunks = runs.length := by rw [emitted.count, none, Nat.zero_add]
    rw [count]
    apply File.writeAt_holds
    intro empty
    have length := (finishedHeader blksz totalBlks runs.length).encode_length
    simp [empty] at length
  chunks := by
    have chunks := emitted.chunks
    rw [offset] at chunks
    apply chunks.mono (File.size_le_writeAt _ _ _)
    intro i lower _
    apply File.writeAt_byte_outside
    rw [SparseHeader.encode_length]
    exact Or.inr lower
  addressable := by
    rw [← offset, ← emitted.offset]
    exact room

/-- `android_sparse_finish` either stops on a failed callback or leaves a complete sparse image. -/
theorem androidSparseFinish_image (fresh : Prop) (confined : Confined blksz I writeCb) (input : AndroidSparseInput)
    (bitmask : Bitmask) (fdTarget : Fd) (privateData : σ) (present : input.chunkBitmasks = some bitmask)
    (clean : input.error = 0) (size : input.blksz = blksz) (total : input.totalBlks = bitmask.totalBits)
    (range : bitmask.IntRange) (width : blksz < 2^32) (start : fdTarget.start = 0)
    (valid : I privateData) (tight : fresh → fdTarget.file.size ≤ 28) :
    ∃ st, androidSparseFinish input fdTarget writeCb privateData = some st ∧
      (st.ret < 0 ∧ (∃ fd chunk s, I s ∧ st.ret = (writeCb fd chunk s).1) ∨
        (0 ≤ st.ret ∨ nextIndex bitmask.bit bitmask.totalBits 0 = none) ∧
        ∃ runs, SparseImage fresh blksz bitmask.totalBits bitmask.bit I writeCb st.fdTarget.file runs) := by
  have slack : headerSlack bitmask 0 ≤ 12 := by
    unfold headerSlack
    split <;> omega
  have room : blockLimit * max blksz 24 ≤ (2^31 - 1) * (2^32 - 1) :=
    Nat.mul_le_mul (Nat.le_refl _) (by omega)
  obtain ⟨failed, st, run, stopped, finished⟩ := sparseFinishLoop_emitted confined bitmask range
    (bitmask.totalBits + 1) bitmask.continueInit ⟨fdTarget, 0, 0, 28, -1, privateData⟩ (by simp)
    (bitmask.continueInit_at range) (Nat.zero_le _) start valid tight
    (by simp only [Nat.sub_zero]; omega)
  simp only [androidSparseFinish, present, clean, size, total, ne_eq, not_true_eq_false, ↓reduceIte, run]
  cases failed with
  | true => exact ⟨st, rfl, Or.inl (stopped rfl)⟩
  | false =>
    obtain ⟨bound, ret, remaining, runs, emitted, tiles⟩ := finished rfl
    obtain ⟨mid, last, same, file⟩ := sparseFinishTail_emitted blksz writeCb st
      bitmask.totalBits emitted.start emitted.valid emitted.tight (by omega)
    refine ⟨_, rfl, Or.inr ⟨?_, runs ++ lastRuns bitmask.totalBits st.blk, ?_⟩⟩
    · rw [same]
      exact ret.imp_right And.right
    · rw [file]
      have final := last.offset
      have size : chunksSize blksz (lastRuns bitmask.totalBits st.blk) ≤ 12 := by
        unfold lastRuns
        split <;> simp [chunkSize]
      exact (emitted.trans last).image tiles rfl rfl (by omega)

def Agree (R : σ → σ → Prop) (writeCb : AndroidSparseWrite σ) : Prop :=
  ∀ fd chunk s t, R s t → (writeCb fd chunk t).1 = (writeCb fd chunk s).1 ∧
    (writeCb fd chunk t).2.1 = (writeCb fd chunk s).2.1 ∧
    R (writeCb fd chunk s).2.2 (writeCb fd chunk t).2.2

variable {R : σ → σ → Prop}

theorem sparseFinishStep_agree (blksz : Nat) (agree : Agree R writeCb) (it : Bitmask.ContinueIterator)
    (st : SparseFinish σ) (t : σ) (related : R st.privateData t) :
    ∃ t', R (sparseFinishStep blksz writeCb it st).2.privateData t' ∧
      sparseFinishStep blksz writeCb it { st with privateData := t } =
        ((sparseFinishStep blksz writeCb it st).1,
          { (sparseFinishStep blksz writeCb it st).2 with privateData := t' }) := by
  have gap : ∀ (mid : SparseFinish σ) k,
      sparseFinishGap k { mid with privateData := t } =
        { sparseFinishGap k mid with privateData := t } ∧
      (sparseFinishGap k mid).privateData = mid.privateData := by
    intro mid k
    unfold sparseFinishGap
    split <;> exact ⟨rfl, rfl⟩
  have here := gap { st with fdTarget := st.fdTarget.fileseek st.offset } (toSizeT it.start)
  simp only [sparseFinishStep]
  rw [here.1]
  have same := here.2
  simp only at same ⊢
  generalize sparseFinishGap (toSizeT it.start)
    { st with fdTarget := st.fdTarget.fileseek st.offset } = mid at same ⊢
  rw [← same] at related
  obtain ⟨ret, target, next⟩ := agree (mid.fdTarget.write (ChunkHeader.encode
    ⟨CHUNK_TYPE_RAW, 0, toSizeT it.bits, toSizeT it.bits * blksz % 2^64 + 12⟩))
    ⟨toSizeT it.start % 2^32, toSizeT it.bits % 2^32⟩ _ _ related
  rw [ret, target]
  split
  · exact ⟨_, next, rfl⟩
  · exact ⟨_, next, rfl⟩

theorem sparseFinishLoop_agree (blksz : Nat) (agree : Agree R writeCb) (bitmask : Bitmask) (fuel : Nat)
    (it : Bitmask.ContinueIterator) (st : SparseFinish σ) (t : σ) (related : R st.privateData t) :
    (sparseFinishLoop bitmask blksz writeCb fuel it { st with privateData := t }).map
        (fun out => (out.1, out.2.fdTarget, out.2.blk, out.2.totalChunks, out.2.offset)) =
      (sparseFinishLoop bitmask blksz writeCb fuel it st).map
        (fun out => (out.1, out.2.fdTarget, out.2.blk, out.2.totalChunks, out.2.offset)) := by
  induction fuel generalizing it st t with
  | zero => rfl
  | succ fuel ih =>
    obtain ⟨t', next, step⟩ := sparseFinishStep_agree blksz agree it st t related
    unfold sparseFinishLoop
    rw [step]
    generalize sparseFinishStep blksz writeCb it st = result at next ⊢
    obtain ⟨flag, st'⟩ := result
    by_cases finished : it.start < 0
    · rw [if_pos finished, if_pos finished]
      rfl
    · rw [if_neg finished, if_neg finished]
      cases flag with
      | true => rfl
      | false => exact ih _ st' t' next

theorem androidSparseFinish_agree (agree : Agree R writeCb) (input : AndroidSparseInput) (fdTarget : Fd)
    (s t : σ) (related : R s t) :
    (androidSparseFinish input fdTarget writeCb t).map SparseFinish.fdTarget =
      (androidSparseFinish input fdTarget writeCb s).map SparseFinish.fdTarget := by
  unfold androidSparseFinish
  cases input.chunkBitmasks with
  | none => rfl
  | some bitmask =>
    dsimp only
    by_cases dirty : input.error ≠ 0
    · rw [if_pos dirty, if_pos dirty]
      rfl
    · rw [if_neg dirty, if_neg dirty]
      have same := sparseFinishLoop_agree input.blksz agree bitmask (input.totalBlks + 1)
        bitmask.continueInit ⟨fdTarget, 0, 0, 28, -1, s⟩ t related
      revert same
      generalize sparseFinishLoop bitmask input.blksz writeCb (input.totalBlks + 1) bitmask.continueInit
        ⟨fdTarget, 0, 0, 28, -1, s⟩ = left
      generalize sparseFinishLoop bitmask input.blksz writeCb (input.totalBlks + 1) bitmask.continueInit
        ⟨fdTarget, 0, 0, 28, -1, t⟩ = right
      intro same
      match left, right with
      | none, none => rfl
      | none, some _ => simp at same
      | some _, none => simp at same
      | some (flag, st), some (flag', st') =>
        simp only [Option.map_some, Option.some.injEq, Prod.mk.injEq] at same
        obtain ⟨rfl, target, blk, count, offset⟩ := same
        cases flag' with
        | true => simp only [Option.map_some, target]
        | false =>
          simp only [Option.map_some, sparseFinishTail, target, blk, count, offset]
          split
          · rfl
          · rw [target, count]

end Finish

def addedBlocks (adds : List (Nat × Nat)) (k : Nat) : Bool :=
  adds.any fun add => decide (add.1 ≤ k ∧ k < add.1 + add.2)

theorem androidSparseAddChunks_spec (input : AndroidSparseInput) (bitmask : Bitmask)
    (adds : List (Nat × Nat)) (present : input.chunkBitmasks = some bitmask)
    (inside : ∀ add ∈ adds, add.2 = 0 ∨ add.1 + add.2 ≤ bitmask.totalBits) :
    ∃ marked, androidSparseAddChunks input adds = { input with chunkBitmasks := some marked } ∧
      marked.totalBits = bitmask.totalBits ∧ ∀ k, marked.bit k = (bitmask.bit k || addedBlocks adds k) := by
  induction adds generalizing input bitmask with
  | nil =>
    refine ⟨bitmask, ?_, rfl, fun k => by simp [addedBlocks]⟩
    simp [androidSparseAddChunks, ← present]
  | cons add rest ih =>
    have ret : (bitmask.setBits add.1 add.2).1 = 0 := by
      rcases inside add (by simp) with empty | bound
      · rw [empty]
        rfl
      · exact bitmask.setBits_ret _ _ bound
    have total := bitmask.setBits_totalBits add.1 add.2
    obtain ⟨marked, result, size, bits⟩ := ih
      { input with chunkBitmasks := some (bitmask.setBits add.1 add.2).2 } _ rfl (by
        intro next member
        rw [total]
        exact inside next (List.mem_cons_of_mem _ member))
    refine ⟨marked, ?_, size.trans total, ?_⟩
    · simp only [androidSparseAddChunks, List.foldl_cons] at result ⊢
      simp only [androidSparseAddChunk, present, ret, Int.lt_irrefl, ↓reduceIte]
      exact result
    · intro k
      rw [bits, bitmask.setBits_bit]
      have bound := inside add (by simp)
      simp only [addedBlocks, List.any_cons]
      by_cases here : add.1 ≤ k ∧ k < add.1 + add.2
      · rw [if_pos (by omega)]
        simp [here]
      · rw [if_neg (by omega)]
        simp [here]

theorem androidSparseAddChunks_marks (blksz : Nat) {totalBlks : Nat} {adds : List (Nat × Nat)}
    (inside : ∀ add ∈ adds, add.2 = 0 ∨ add.1 + add.2 ≤ totalBlks) :
    ∃ marked, androidSparseAddChunks (androidSparseInit blksz totalBlks) adds =
        { androidSparseInit blksz totalBlks with chunkBitmasks := some marked } ∧
      marked.totalBits = totalBlks ∧ marked.bit = addedBlocks adds := by
  obtain ⟨marked, input, size, bits⟩ := androidSparseAddChunks_spec
    (androidSparseInit blksz totalBlks) (allocBitmask totalBlks) adds rfl inside
  refine ⟨marked, input, size, ?_⟩
  funext k
  rw [bits, Bitmask.allocBitmask_bit, Bool.false_or]

/-- What the finished file says when its chunk headers are read back one after the other. -/
structure SparsePartition {σ : Type} (fresh : Prop) (blksz totalBlks : Nat) (added : Nat → Bool) (I : σ → Prop)
    (writeCb : AndroidSparseWrite σ) (f : File) (chunks : List Run) : Prop where
  partition : Tiles added totalBlks 0 chunks
  raw : ∀ k, k < totalBlks → (added k = true ↔ ∃ r ∈ chunks, r.set = true ∧ r.start ≤ k ∧ k < r.stop)
  dontcare : ∀ k, k < totalBlks →
    (added k = false ↔ ∃ r ∈ chunks, r.set = false ∧ r.start ≤ k ∧ k < r.stop)
  header : SparseHeader.decode (f.readAt 0 28) =
    ⟨SPARSE_HEADER_MAGIC, 1, 0, 28, 12, blksz, totalBlks, chunks.length, 0⟩
  chunkSz : ((List.range chunks.length).map fun i =>
    (ChunkHeader.decode (f.readAt (chunkOffset blksz chunks i) 12)).chunkSz).sum = totalBlks
  chunk : ∀ i r, chunks[i]? = some r →
    ChunkHeader.decode (f.readAt (chunkOffset blksz chunks i) 12) =
      ⟨if r.set then CHUNK_TYPE_RAW else CHUNK_TYPE_DONT_CARE, 0, r.len,
        (if r.set then r.len * blksz + 12 else 12) % 2^32⟩
  data : ∀ i r, chunks[i]? = some r → r.set = true →
    WrittenBy fresh blksz I writeCb f (chunkOffset blksz chunks i + 12) r
  disjoint : ∀ i j r, i < j → j < chunks.length → chunks[i]? = some r →
    chunkOffset blksz chunks i + chunkSize blksz r ≤ chunkOffset blksz chunks j

theorem chunkOffset_disjoint (blksz : Nat) (chunks : List Run) {i j : Nat} {r : Run} (order : i < j)
    (bound : j < chunks.length) (found : chunks[i]? = some r) :
    chunkOffset blksz chunks i + chunkSize blksz r ≤ chunkOffset blksz chunks j := by
  obtain ⟨short, value⟩ := List.getElem?_eq_some_iff.mp found
  have cut : (chunks.take j).drop i = r :: (chunks.take j).drop (i + 1) := by
    rw [List.drop_eq_getElem_cons (by rw [List.length_take]; omega), List.getElem_take, value]
  have split : chunks.take j = chunks.take i ++ r :: (chunks.take j).drop (i + 1) := by
    rw [← cut]
    have parts := List.take_append_drop i (chunks.take j)
    rw [List.take_take, Nat.min_eq_left (by omega)] at parts
    exact parts.symm
  rw [chunkOffset, chunkOffset, split, chunksSize_append, chunksSize_cons]
  omega

theorem SparseImage.partition {σ : Type} {fresh : Prop} {blksz totalBlks : Nat} {added : Nat → Bool} {I : σ → Prop}
    {writeCb : AndroidSparseWrite σ} {f : File} {chunks : List Run}
    (image : SparseImage fresh blksz totalBlks added I writeCb f chunks) (width : blksz < 2^32)
    (small : totalBlks < 2^32) : SparsePartition fresh blksz totalBlks added I writeCb f chunks := by
  have total := image.tiles.sum_len
  rw [Nat.zero_add] at total
  have chunk : ∀ i r, chunks[i]? = some r →
      ChunkHeader.decode (f.readAt (chunkOffset blksz chunks i) 12) =
        ⟨if r.set then CHUNK_TYPE_RAW else CHUNK_TYPE_DONT_CARE, 0, r.len,
          (if r.set then r.len * blksz + 12 else 12) % 2^32⟩ := by
    intro i r found
    have bounds := image.tiles.mem_bounds (List.mem_of_getElem? found)
    have header := (image.chunks.get found).1.readAt
    rw [ChunkHeader.encode_length] at header
    rw [chunkOffset, header, ChunkHeader.decode_encode]
    unfold Run.stop at bounds
    have len : r.len < 4294967296 := by omega
    unfold runHeader
    cases r.set <;> simp [len, CHUNK_TYPE_RAW, CHUNK_TYPE_DONT_CARE]
  constructor
  case partition => exact image.tiles
  case raw =>
    intro k bound
    constructor
    · intro set
      obtain ⟨r, member, lower, upper⟩ := image.tiles.cover (Nat.zero_le k) bound
      exact ⟨r, member, by rw [← image.tiles.mem_value member lower upper, set], lower, upper⟩
    · rintro ⟨r, member, set, lower, upper⟩
      rw [image.tiles.mem_value member lower upper, set]
  case dontcare =>
    intro k bound
    constructor
    · intro clear
      obtain ⟨r, member, lower, upper⟩ := image.tiles.cover (Nat.zero_le k) bound
      exact ⟨r, member, by rw [← image.tiles.mem_value member lower upper, clear], lower, upper⟩
    · rintro ⟨r, member, clear, lower, upper⟩
      rw [image.tiles.mem_value member lower upper, clear]
  case header =>
    have header := image.header.readAt
    have count := image.tiles.length_le
    rw [SparseHeader.encode_length] at header
    rw [header, SparseHeader.decode_encode]
    simp only [finishedHeader, Nat.mod_eq_of_lt width, Nat.mod_eq_of_lt small,
      Nat.mod_eq_of_lt (show chunks.length < 2^32 by omega)]
    rfl
  case chunkSz =>
    have fields : (List.range chunks.length).map (fun i =>
        (ChunkHeader.decode (f.readAt (chunkOffset blksz chunks i) 12)).chunkSz) = chunks.map Run.len := by
      apply List.ext_getElem
      · simp
      · intro i _ bound
        rw [List.length_map] at bound
        simp only [List.getElem_map, List.getElem_range]
        rw [chunk i chunks[i] (List.getElem?_eq_getElem bound)]
    rw [fields, total]
  case chunk => exact chunk
  case data =>
    intro i r found raw
    exact (image.chunks.get found).2 raw
  case disjoint =>
    intro i j r order bound found
    exact chunkOffset_disjoint blksz chunks order bound found

theorem SparsePartition.added_eq {σ : Type} {fresh : Prop} {blksz totalBlks : Nat} {added other : Nat → Bool}
    {I : σ → Prop} {writeCb : AndroidSparseWrite σ} {f : File} {chunks more : List Run}
    (left : SparsePartition fresh blksz totalBlks added I writeCb f chunks)
    (right : SparsePartition fresh blksz totalBlks other I writeCb f more) {k : Nat} (inside : k < totalBlks) :
    added k = other k := by
  have count : chunks.length = more.length := by
    have same := left.header.symm.trans right.header
    simpa using same
  have same : ∀ n, n ≤ chunks.length → chunks.take n = more.take n := by
    intro n bound
    induction n with
    | zero => rfl
    | succ n ih =>
      have before := ih (by omega)
      have here := List.getElem?_eq_getElem (show n < chunks.length by omega)
      have there := List.getElem?_eq_getElem (show n < more.length by omega)
      rw [List.take_succ_eq_append_getElem (show n < chunks.length by omega),
        List.take_succ_eq_append_getElem (show n < more.length by omega), before]
      generalize chunks[n] = r at *
      generalize more[n] = s at *
      have start : r.start = s.start := by
        rw [left.partition.start_eq here, right.partition.start_eq there, before]
      have decoded := left.chunk n r here
      rw [chunkOffset, before, ← chunkOffset, right.chunk n s there] at decoded
      simp only [ChunkHeader.mk.injEq] at decoded
      obtain ⟨type, _, len, _⟩ := decoded
      have set : r.set = s.set := by
        revert type
        cases r.set <;> cases s.set <;> decide
      cases r
      cases s
      simp only at start len set
      rw [start, len, set]
  have whole := same chunks.length (Nat.le_refl _)
  rw [List.take_length, count, List.take_length] at whole
  obtain ⟨r, member, lower, upper⟩ := left.partition.cover (Nat.zero_le k) inside
  rw [left.partition.mem_value member lower upper]
  rw [whole] at member
  rw [right.partition.mem_value member lower upper]

/-- `android_sparse_finish` partitions the file system into the added blocks and the others. -/
theorem androidSparseFinish_partition {σ : Type} (blksz totalBlks : Nat) (adds : List (Nat × Nat))
    (fdTarget : Fd) (writeCb : AndroidSparseWrite σ) (I : σ → Prop) (privateData : σ)
    (width : blksz < 2^32) (small : totalBlks < 2^31)
    (inside : ∀ add ∈ adds, add.2 = 0 ∨ add.1 + add.2 ≤ totalBlks)
    (nonempty : ∃ add ∈ adds, 0 < add.2) (start : fdTarget.start = 0)
    (confined : Confined blksz I writeCb) (valid : I privateData) :
    ∃ st, androidSparseFinish (androidSparseAddChunks (androidSparseInit blksz totalBlks) adds) fdTarget
        writeCb privateData = some st ∧
      (st.ret < 0 ∧ (∃ fd chunk s, I s ∧ st.ret = (writeCb fd chunk s).1) ∨
        0 ≤ st.ret ∧ ∃ chunks,
          SparsePartition (fdTarget.file.size = 0) blksz totalBlks (addedBlocks adds) I writeCb st.fdTarget.file chunks) := by
  obtain ⟨marked, input, total, same⟩ := androidSparseAddChunks_marks blksz inside
  have range : marked.IntRange := by
    intro k bound _
    omega
  obtain ⟨st, result, outcome⟩ := androidSparseFinish_image (fdTarget.file.size = 0) confined
    (androidSparseAddChunks (androidSparseInit blksz totalBlks) adds) marked fdTarget privateData
    (by rw [input]) (by rw [input]; rfl) (by rw [input]; rfl) (by rw [input, total]; rfl) range width
    start valid (fun empty => by omega)
  refine ⟨st, result, outcome.imp id ?_⟩
  rintro ⟨ret, chunks, image⟩
  rw [total, same] at image
  refine ⟨?_, chunks, image.partition width (by omega)⟩
  rcases ret with good | none
  · exact good
  · obtain ⟨add, member, positive⟩ := nonempty
    have bound := inside add member
    have here : addedBlocks adds add.1 = true := by
      simp only [addedBlocks, List.any_eq_true, decide_eq_true_eq]
      exact ⟨add, member, Nat.le_refl _, by omega⟩
    rw [← same, nextIndex_none none (Nat.zero_le add.1) (by omega)] at here
    contradiction

def sparseGentestWriteChunk : AndroidSparseWrite Unit := fun fd chunk _ =>
  (0, (fd.write (leBytes 4 chunk.fsBlocknr)).write (leBytes 4 chunk.count), ())

/-- The chunks `sparse_gentest` adds, repeated ones included. -/
def sparseGentestChunks : List (Nat × Nat) :=
  [(0, 2), (2, 1), (4, 2), (10, 3), (10, 3), (11, 1), (11, 2), (12, 1)]

theorem sparseGentestWriteChunk_confined (blksz : Nat) (room : 8 ≤ blksz) :
    Confined blksz (fun _ => True) sparseGentestWriteChunk where
  start := fun _ _ _ call => call.2.1
  outside := by
    intro fd chunk s call i outside
    have data : 1 * 8 ≤ chunk.count * blksz := Nat.mul_le_mul call.2.2.2 room
    simp only [sparseGentestWriteChunk, Fd.write_write, Fd.write_file]
    apply File.writeAt_byte_outside
    simp only [List.length_append, leBytes_length]
    omega
  grows := by
    intro fd chunk s _
    simp only [sparseGentestWriteChunk, Fd.write_write, Fd.write_file]
    exact File.size_le_writeAt _ _ _
  bounded := by
    intro fd chunk s call
    have data : 1 * 8 ≤ chunk.count * blksz := Nat.mul_le_mul call.2.2.2 room
    simp only [sparseGentestWriteChunk, Fd.write_write, Fd.write_file]
    apply Nat.le_trans (File.writeAt_size_le _ _ _)
    simp only [List.length_append, leBytes_length]
    omega
  valid := fun _ _ _ _ => trivial

theorem androidSparseFinish_partition_gentest :
    ∃ st, androidSparseFinish
        (androidSparseAddChunks (androidSparseInit 4096 512) sparseGentestChunks) Fd.created
        sparseGentestWriteChunk () = some st ∧
      ∃ chunks, SparsePartition (Fd.created.file.size = 0) 4096 512 (addedBlocks sparseGentestChunks) (fun _ => True)
        sparseGentestWriteChunk st.fdTarget.file chunks := by
  obtain ⟨st, result, outcome⟩ := androidSparseFinish_partition 4096 512 sparseGentestChunks Fd.created
    sparseGentestWriteChunk (fun _ => True) () (by decide) (by decide) (by decide) (by decide) rfl
    (sparseGentestWriteChunk_confined 4096 (by decide)) trivial
  refine ⟨st, result, ?_⟩
  rcases outcome with ⟨negative, _, _, _, _, failed⟩ | ⟨_, partition⟩
  · rw [failed] at negative
    exact absurd negative (by simp [sparseGentestWriteChunk])
  · exact partition

end ImgEditor
