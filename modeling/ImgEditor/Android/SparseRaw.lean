import Mathlib.Data.Nat.ModEq
import ImgEditor.Android.SparseFinish
import ImgEditor.Core.BitmaskInt

namespace ImgEditor

open Storage

/-- Whether the chunks from `offset` on, the first of them for block `blk`, have block `k` in a RAW chunk. -/
def rawAmongChunks (f : File) (blksz k : Nat) : Nat → Nat → Nat → Bool
  | 0, _, _ => false
  | chunks + 1, offset, blk =>
    let ch := ChunkHeader.decode (f.slice offset 12)
    let raw := decide (ch.chunkType = CHUNK_TYPE_RAW)
    raw && decide (blk ≤ k ∧ k < blk + ch.chunkSz) ||
      rawAmongChunks f blksz k chunks (offset + if raw then 12 + ch.chunkSz * blksz else 12) (blk + ch.chunkSz)

/-- Whether a sparse image has the data of block `k` in a RAW chunk. -/
def hasRawBlock (f : File) (k : Nat) : Bool :=
  let h := SparseHeader.decode (f.slice 0 28)
  rawAmongChunks f h.blkSz k h.totalChunks 28 0

section Raw

variable {σ : Type} {fresh : Prop} {blksz : Nat} {I : σ → Prop} {writeCb : AndroidSparseWrite σ}

theorem rawAmongChunks_iff {f : File} {p : Nat → Bool} {total lo offset k : Nat} {runs : List Run} (wide : total < 2^32)
    (tiles : Tiles p total lo runs) (chunks : ChunksAt fresh blksz I writeCb f offset runs) :
    rawAmongChunks f blksz k runs.length offset lo = true ↔ lo ≤ k ∧ k < total ∧ p k = true := by
  induction runs generalizing lo offset with
  | nil =>
    have done : lo = total := tiles
    refine iff_of_false Bool.false_ne_true fun inside => ?_
    omega
  | cons r rest ih =>
    rcases tiles with ⟨first, positive, bound, value, _, tail⟩
    rcases chunks with ⟨header, _, behind⟩
    have stop : lo + r.len = r.stop := by rw [Run.stop, first]
    have small : r.len < 2^32 := by omega
    have read : ChunkHeader.decode (f.slice offset 12) =
        ⟨if r.set then CHUNK_TYPE_RAW else CHUNK_TYPE_DONT_CARE, 0, r.len, (runHeader blksz r).totalSz % 2^32⟩ := by
      have bytes := header.2
      rw [ChunkHeader.encode_length] at bytes
      rw [bytes, ChunkHeader.decode_encode]
      unfold runHeader
      split
      · simpa [CHUNK_TYPE_RAW] using small
      · simpa [CHUNK_TYPE_DONT_CARE] using small
    have later := ih tail behind
    have here : ∀ i, lo ≤ i → i < r.stop → p i = r.set := value
    rw [List.length_cons, rawAmongChunks, read]
    dsimp only
    rw [stop]
    unfold chunkSize at later
    cases set : r.set with
    | true =>
      rw [set] at later here
      rw [if_pos rfl, decide_eq_true rfl, Bool.true_and, Bool.or_eq_true, decide_eq_true_iff]
      refine (or_congr_right later).trans ⟨?_, ?_⟩
      · rintro (inside | ⟨beyond, below, holds⟩)
        · exact ⟨inside.1, by omega, here k inside.1 inside.2⟩
        · exact ⟨by omega, below, holds⟩
      · rintro ⟨lower, below, holds⟩
        by_cases inside : k < r.stop
        · exact .inl ⟨lower, inside⟩
        · exact .inr ⟨by omega, below, holds⟩
    | false =>
      rw [set] at later here
      rw [if_neg Bool.false_ne_true, decide_eq_false dontcare_ne_raw, Bool.false_and, Bool.false_or]
      refine later.trans ⟨?_, ?_⟩
      · rintro ⟨beyond, below, holds⟩
        exact ⟨by omega, below, holds⟩
      · rintro ⟨lower, below, holds⟩
        by_cases inside : k < r.stop
        · rw [here k lower inside] at holds
          exact absurd holds Bool.false_ne_true
        · exact ⟨by omega, below, holds⟩

/-- Behind the header that is written last, the chunks are those of the runs. -/
theorem hasRawBlock_iff {st mid : SparseFinish σ} {p : Nat → Bool} {total k : Nat} {runs : List Run}
    (emitted : Emitted fresh blksz I writeCb st mid runs) (offset : st.offset = 28) (none : st.totalChunks = 0)
    (width : blksz < 2^32) (wide : total < 2^32) (tiles : Tiles p total 0 runs) :
    hasRawBlock (mid.fdTarget.file.writeAt 0 (finishedHeader blksz total mid.totalChunks).encode) k = true ↔
      k < total ∧ p k = true := by
  have count : mid.totalChunks = runs.length := by rw [emitted.count, none, Nat.zero_add]
  have few := tiles.length_le
  have read : SparseHeader.decode ((mid.fdTarget.file.writeAt 0 (finishedHeader blksz total mid.totalChunks).encode).slice 0 28) =
      finishedHeader blksz total runs.length := by
    have bytes := mid.fdTarget.file.writeAt_slice_self 0 (finishedHeader blksz total mid.totalChunks).encode
    rw [SparseHeader.encode_length] at bytes
    rw [bytes, SparseHeader.decode_encode, count]
    have short : runs.length < 2^32 := by omega
    simpa [finishedHeader, SPARSE_HEADER_MAGIC] using ⟨width, wide, short⟩
  have chunks := emitted.chunks
  rw [offset] at chunks
  have kept : ChunksAt fresh blksz I writeCb
      (mid.fdTarget.file.writeAt 0 (finishedHeader blksz total mid.totalChunks).encode) 28 runs := by
    apply chunks.mono (File.size_le_writeAt _ _ _)
    intro i lower _
    apply File.writeAt_byte_outside
    rw [SparseHeader.encode_length]
    exact .inr lower
  unfold hasRawBlock
  rw [read]
  refine (rawAmongChunks_iff wide tiles kept).trans ?_
  exact and_iff_right (Nat.zero_le k)

/-- A step for the run `[k, e)` writes its chunks, also where the count that it is told is right to 32 bits only. -/
theorem sparseFinishStep_chunks (confined : Confined blksz I writeCb) (succeeds : ∀ fd chunk s, 0 ≤ (writeCb fd chunk s).1)
    (it : Bitmask.ContinueIterator) (st : SparseFinish σ) {k e : Nat} (first : it.start = k)
    (low : toSizeT it.bits % 2^32 = e - k) (order : st.blk ≤ k) (after : k < e) (wide : e < 2^32)
    (start : st.fdTarget.start = 0) (valid : I st.privateData) (tight : fresh → st.fdTarget.file.size ≤ st.offset)
    (bound : st.offset + 24 < 2^63) :
    (sparseFinishStep blksz writeCb it st).1 = false ∧ 0 ≤ (sparseFinishStep blksz writeCb it st).2.ret ∧
      (sparseFinishStep blksz writeCb it st).2.blk = (k + toSizeT it.bits) % 2^64 ∧
      ∃ mid, mid.fdTarget = (sparseFinishStep blksz writeCb it st).2.fdTarget ∧
        mid.totalChunks = (sparseFinishStep blksz writeCb it st).2.totalChunks ∧
        Emitted fresh blksz I writeCb st mid (nextRuns st.blk k e) := by
  have blknr : toSizeT it.start = k := by rw [first, toSizeT_natCast (by omega)]
  have gap := @sparseFinishGap_ahead _ fresh blksz I writeCb st k order (by omega) start valid tight (by omega)
  simp only [sparseFinishStep, blknr]
  generalize sparseFinishGap k { st with fdTarget := st.fdTarget.fileseek st.offset } = mid at gap
  obtain ⟨ahead, aligned, here⟩ := gap
  have offset := ahead.offset
  have gapSize : chunksSize blksz (if st.blk = k then [] else [⟨st.blk, k - st.blk, false⟩]) ≤ 12 := by
    split <;> simp [chunkSize]
  have raw := sparseFinishRaw_emitted confined mid (e - k) e (by omega) ahead.start aligned ahead.valid
    ahead.tight (by omega)
  generalize toSizeT it.bits = n at low
  have encoded : (runHeader blksz ⟨k, e - k, true⟩).encode =
      ChunkHeader.encode ⟨CHUNK_TYPE_RAW, 0, n, n * blksz % 2^64 + 12⟩ := by
    have whole : Nat.ModEq (2^32) (n * blksz % 2^64) (n * blksz) := (Nat.mod_modEq _ _).of_dvd (by decide)
    have narrow : Nat.ModEq (2^32) (n * blksz) (n % 2^32 * blksz) := (Nat.mod_modEq n _).symm.mul_right _
    have chunkSz : leBytes 4 n = leBytes 4 (e - k) := by
      rw [← leBytes_mod 4 n, ← low]
      rfl
    have totalSz : leBytes 4 (n * blksz % 2^64 + 12) = leBytes 4 ((e - k) * blksz + 12) := by
      rw [← leBytes_mod, ← leBytes_mod 4 ((e - k) * blksz + 12), ← low]
      exact congrArg (leBytes 4) ((whole.trans narrow).add_right 12)
    simp only [runHeader_raw, ChunkHeader.encode, chunkSz, totalSz]
  have call : sparseFinishRaw blksz writeCb k (e - k) mid =
      writeCb (mid.fdTarget.write (ChunkHeader.encode ⟨CHUNK_TYPE_RAW, 0, n, n * blksz % 2^64 + 12⟩))
        ⟨k % 2^32, n % 2^32⟩ mid.privateData := by
    rw [sparseFinishRaw, encoded, Nat.mod_eq_of_lt (show k < 2^32 by omega), low]
  rw [← call]
  rw [here] at raw
  have passed : ¬ (sparseFinishRaw blksz writeCb k (e - k) mid).1 < 0 := Int.not_lt.mpr (succeeds _ _ _)
  simp only [passed, ↓reduceIte, here]
  exact ⟨trivial, succeeds _ _ _, trivial, _, rfl, rfl, ahead.trans raw⟩

/-- What the loop has written: chunks up to the gap behind the last run, or up to the last block. -/
def LoopChunks (fresh : Prop) (blksz : Nat) (I : σ → Prop) (writeCb : AndroidSparseWrite σ) (p : Nat → Bool) (total : Nat)
    (st st' : SparseFinish σ) : Prop :=
  ∃ mid runs, mid.fdTarget = st'.fdTarget ∧ mid.totalChunks = st'.totalChunks ∧ Emitted fresh blksz I writeCb st mid runs ∧
    (mid = st' ∧ st'.blk ≤ total ∧ st'.offset < 2^63 - 64 ∧ Tiles p total st.blk (runs ++ lastRuns total st'.blk) ∨
      total ≤ st'.blk ∧ Tiles p total st.blk runs)

theorem sparseFinishLoop_chunks (confined : Confined blksz I writeCb) (succeeds : ∀ fd chunk s, 0 ≤ (writeCb fd chunk s).1)
    (bitmask : Bitmask) (wide : bitmask.totalBits < 2^32) (fuel : Nat) (it : Bitmask.ContinueIterator) (st : SparseFinish σ)
    (enough : bitmask.totalBits - st.blk < fuel) (here : bitmask.IntIteratorAt it st.blk) (within : st.blk ≤ bitmask.totalBits)
    (start : st.fdTarget.start = 0) (valid : I st.privateData) (tight : fresh → st.fdTarget.file.size ≤ st.offset)
    (room : st.offset + (headerSlack bitmask.intView st.blk + (blockLimit - st.blk) * max blksz 24) < 2^63 - 64) :
    ∃ st', sparseFinishLoop bitmask blksz writeCb fuel it st = some (false, st') ∧
      (0 ≤ st'.ret ∨ st'.ret = st.ret ∧ nextIndex bitmask.intView.bit bitmask.totalBits st.blk = none) ∧
      LoopChunks fresh blksz I writeCb bitmask.intView.bit bitmask.totalBits st st' := by
  induction fuel generalizing it st with
  | zero => omega
  | succ fuel ih =>
    unfold sparseFinishLoop
    cases found : nextIndex bitmask.intView.bit bitmask.totalBits st.blk with
    | none =>
      unfold Bitmask.IntIteratorAt at here
      rw [found] at here
      rw [if_pos here]
      refine ⟨st, rfl, .inr ⟨rfl, rfl⟩, st, [], rfl, rfl, Emitted.refl st start valid tight, .inl ⟨rfl, within, by omega, ?_⟩⟩
      exact lastRuns_tiles _ within found
    | some k =>
      obtain ⟨lower, inside, set, _⟩ := nextIndex_some found
      have next := bitmask.continueNext_intView wide found here
      have total : bitmask.intView.totalBits = bitmask.totalBits := bitmask.capped_totalBits _
      obtain ⟨after, ends, _, _⟩ := bitmask.intView.runEnd_spec (by rw [total]; exact inside) set
      have tiled : ∀ {rest : List Run}, Tiles bitmask.intView.bit bitmask.totalBits (bitmask.intView.runEnd k) rest →
          Tiles bitmask.intView.bit bitmask.totalBits st.blk (nextRuns st.blk k (bitmask.intView.runEnd k) ++ rest) := by
        rw [← total] at found ⊢
        exact fun tail => nextRuns_tiles bitmask.intView found tail
      rw [total] at ends
      unfold Bitmask.IntIteratorAt at here
      rw [found] at here
      rcases here with ⟨first, small, ⟨_, near, count⟩ | ⟨_, whole, count⟩⟩
      · rw [if_neg (by omega)]
        have fits := nextRuns_room bitmask.intView blksz st.blk k lower (by rw [total]; exact inside) set near
        have step := sparseFinishStep_emitted confined it st k (bitmask.intView.runEnd k) first count lower after
          (by omega) start valid tight (by omega)
        generalize sparseFinishStep blksz writeCb it st = result at step
        obtain ⟨flag, st'⟩ := result
        obtain ⟨⟨fd, chunk, s, _, called⟩, ⟨_, negative⟩ | ⟨passed, positive, blk, emitted⟩⟩ := step
        · have good := succeeds fd chunk s
          rw [← called] at good
          exact absurd negative (Int.not_lt.mpr good)
        · simp only at passed positive blk emitted
          subst passed
          have offset := emitted.offset
          obtain ⟨final, run, ret, mid, runs, target, chunks, more, tail⟩ := ih (bitmask.continueNext it) st'
            (by omega) (by rw [blk]; exact next) (by omega) emitted.start emitted.valid emitted.tight
            (by rw [blk]; omega)
          refine ⟨final, run, .inl ?_, mid, _, target, chunks, emitted.trans more, ?_⟩
          · rcases ret with good | ⟨same, _⟩
            · exact good
            · rw [same]
              exact positive
          · rw [blk] at tail
            rcases tail with ⟨same, bound, addressable, tiles⟩ | ⟨bound, tiles⟩
            · rw [List.append_assoc]
              exact .inl ⟨same, bound, addressable, tiled tiles⟩
            · exact .inr ⟨bound, tiled tiles⟩
      · rw [if_neg (by omega)]
        rw [← Int.ofNat_sub (by omega)] at count
        have size := toSizeT_toInt32 (show bitmask.totalBits - k < 2^32 by omega)
        rw [← count] at size
        have step := sparseFinishStep_chunks confined succeeds it st first (by omega) lower inside wide start valid tight
          (by omega)
        generalize sparseFinishStep blksz writeCb it st = result at step
        obtain ⟨flag, st'⟩ := result
        obtain ⟨passed, positive, blk, mid, target, chunks, emitted⟩ := step
        simp only at passed positive blk target chunks
        subst passed
        have ended : (bitmask.continueNext it).start < 0 := by
          rw [whole] at next
          unfold Bitmask.IntIteratorAt at next
          rw [nextIndex_eq_none fun j lower upper => by omega] at next
          exact next
        refine ⟨st', ?_, .inl positive, mid, _, target, chunks, emitted, .inr ⟨by omega, ?_⟩⟩
        · cases fuel with
          | zero => omega
          | succ fuel =>
            unfold sparseFinishLoop
            exact if_pos ended
        · rw [whole] at tiled
          have tiles : Tiles bitmask.intView.bit bitmask.totalBits bitmask.totalBits [] := rfl
          have all := tiled tiles
          rwa [List.append_nil] at all

/-- `android_sparse_finish` with a callback that succeeds: which blocks are in a RAW chunk of the image. -/
theorem androidSparseFinish_raw (confined : Confined blksz I writeCb) (succeeds : ∀ fd chunk s, 0 ≤ (writeCb fd chunk s).1)
    (input : AndroidSparseInput) (bitmask : Bitmask) (fdTarget : Fd) (privateData : σ)
    (present : input.chunkBitmasks = some bitmask) (clean : input.error = 0) (size : input.blksz = blksz)
    (total : input.totalBlks = bitmask.totalBits) (wide : bitmask.totalBits < 2^32) (width : blksz < 2^32)
    (start : fdTarget.start = 0) (valid : I privateData) :
    ∃ st, androidSparseFinish input fdTarget writeCb privateData = some st ∧
      (0 ≤ st.ret ∨ ∀ k < bitmask.totalBits, bitmask.bit (min k Bitmask.lastInt) = false) ∧
      ∀ k, hasRawBlock st.fdTarget.file k = true ↔ k < bitmask.totalBits ∧ bitmask.bit (min k Bitmask.lastInt) = true := by
  have slack : headerSlack bitmask.intView 0 ≤ 12 := by
    unfold headerSlack
    split <;> omega
  have room : blockLimit * max blksz 24 ≤ (2^31 - 1) * (2^32 - 1) :=
    Nat.mul_le_mul (Nat.le_refl _) (by omega)
  obtain ⟨st, run, ret, mid, runs, target, chunks, emitted, outcome⟩ := sparseFinishLoop_chunks confined succeeds bitmask wide
    (bitmask.totalBits + 1) bitmask.continueInit ⟨fdTarget, 0, 0, 28, -1, privateData⟩ (by simp)
    (bitmask.continueInit_intView wide) (Nat.zero_le _) start valid (False.elim : False → _)
    (by simp only [Nat.sub_zero]; omega)
  simp only [androidSparseFinish, present, clean, size, total, ne_eq, not_true_eq_false, ↓reduceIte, run]
  refine ⟨_, rfl, ?_, fun k => ?_⟩
  · have same : (sparseFinishTail blksz bitmask.totalBits st).ret = st.ret := by
      unfold sparseFinishTail
      split <;> rfl
    rw [same]
    refine ret.imp_right fun none k inside => ?_
    rw [← bitmask.capped_bit inside]
    exact nextIndex_none none.2 (Nat.zero_le k) inside
  · have view : (k < bitmask.totalBits ∧ bitmask.intView.bit k = true) ↔
        k < bitmask.totalBits ∧ bitmask.bit (min k Bitmask.lastInt) = true :=
      and_congr_right fun inside => by rw [bitmask.capped_bit inside]
    rw [← view]
    rcases outcome with ⟨rfl, bound, addressable, tiles⟩ | ⟨bound, tiles⟩
    · obtain ⟨last, behind, -, file⟩ := @sparseFinishTail_emitted _ False _ blksz writeCb mid bitmask.totalBits
        emitted.start emitted.valid (False.elim : False → _) (by omega)
      rw [file]
      exact hasRawBlock_iff (emitted.trans behind) rfl rfl width wide tiles
    · have file : (sparseFinishTail blksz bitmask.totalBits st).fdTarget.file =
          mid.fdTarget.file.writeAt 0 (finishedHeader blksz bitmask.totalBits mid.totalChunks).encode := by
        have plain := emitted.start
        rw [target] at plain
        have position : (st.fdTarget.fileseek 0).pos = 0 := by
          rw [Fd.fileseek_pos _ _ (by omega), plain]
        unfold sparseFinishTail
        rw [if_neg (Nat.not_lt.mpr bound), target, chunks]
        dsimp only
        rw [Fd.write_file, Fd.fileseek_file, position]
        rfl
      rw [file]
      exact hasRawBlock_iff emitted rfl rfl width wide tiles

end Raw

/-! ## The blocks that are added -/

/-- What the return values of the failing writes add up to in an `int` is not negative. -/
def AddPasses (total first count : Nat) : Prop :=
  let behind := first + count - max first total
  behind = 0 ∨ 2^31 < behind

instance (total first count : Nat) : Decidable (AddPasses total first count) := inferInstanceAs (Decidable (_ ∨ _))

theorem setBits_ret_eq (b : Bitmask) (first count : Nat) :
    (b.setBits first count).1 = toInt32 (-(first + count - max first b.totalBits : Nat)) := by
  induction count with
  | zero =>
    rw [show first + 0 - max first b.totalBits = 0 by omega]
    rfl
  | succ count ih =>
    have step : (b.setBits first (count + 1)).1 =
        toInt32 ((b.setBits first count).1 + ((b.setBits first count).2.write (first + count) true).1) := rfl
    rw [step, ih, Bitmask.write_ret, Bitmask.setBits_totalBits, toInt32_add]
    congr 1
    split
    · omega
    · omega

theorem setBits_passes_iff (b : Bitmask) (first : Nat) {count : Nat} (small : count < 2^32) :
    ¬ (b.setBits first count).1 < 0 ↔ AddPasses b.totalBits first count := by
  rw [setBits_ret_eq]
  unfold AddPasses toInt32
  rw [Int.bmod_def]
  omega

/-- The blocks that an input has, and whether no error has been counted. -/
structure SparseMarks (input : AndroidSparseInput) (blksz total : Nat) (S : Nat → Prop) (clean : Prop) : Prop where
  blksz : input.blksz = blksz
  totalBlks : input.totalBlks = total
  error : input.error = 0 ↔ clean
  marks : ∃ b, input.chunkBitmasks = some b ∧ b.Marks total S

namespace SparseMarks

variable {input : AndroidSparseInput} {blksz total : Nat} {S T : Nat → Prop} {clean : Prop}

theorem init (blksz total : Nat) : SparseMarks (androidSparseInit blksz total) blksz total (fun _ => False) True := by
  refine ⟨rfl, rfl, iff_of_true rfl trivial, _, rfl, rfl, fun k _ => ?_⟩
  rw [Bitmask.allocBitmask_bit]
  exact iff_of_false Bool.false_ne_true id

theorem congr (marks : SparseMarks input blksz total S clean) (same : ∀ k < total, S k ↔ T k) :
    SparseMarks input blksz total T clean := by
  rcases marks with ⟨size, blocks, error, b, present, bits⟩
  exact ⟨size, blocks, error, b, present, bits.congr same⟩

theorem addChunk (marks : SparseMarks input blksz total S clean) (first : Nat) {count : Nat} (small : count < 2^32) :
    SparseMarks (androidSparseAddChunk input first count).2 blksz total (fun k => S k ∨ first ≤ k ∧ k < first + count)
      (clean ∧ AddPasses total first count) := by
  rcases marks with ⟨size, blocks, error, b, present, bits⟩
  have passes := setBits_passes_iff b first small
  rw [bits.size] at passes
  unfold androidSparseAddChunk
  rw [present]
  refine ⟨size, blocks, ?_, _, rfl, bits.setBits first count⟩
  dsimp only
  rw [← passes]
  split
  · exact iff_of_false (Nat.succ_ne_zero _) fun both => both.2 ‹_›
  · rw [error]
    exact (and_iff_left ‹_›).symm

theorem addInside (marks : SparseMarks input blksz total S clean) {first count : Nat} (inside : first + count ≤ total)
    (small : count < 2^32) :
    SparseMarks (androidSparseAddChunk input first count).2 blksz total (fun k => S k ∨ first ≤ k ∧ k < first + count)
      clean := by
  have passes : AddPasses total first count := .inl (by omega)
  have added := marks.addChunk first small
  rwa [propext (and_iff_left passes)] at added

theorem addChunks (marks : SparseMarks input blksz total S clean) {adds : List (Nat × Nat)}
    (small : ∀ add ∈ adds, add.2 < 2^32) :
    SparseMarks (androidSparseAddChunks input adds) blksz total
      (fun k => S k ∨ ∃ add ∈ adds, add.1 ≤ k ∧ k < add.1 + add.2) (clean ∧ ∀ add ∈ adds, AddPasses total add.1 add.2) := by
  induction adds generalizing input S clean with
  | nil =>
    have same : (clean ∧ ∀ add ∈ ([] : List (Nat × Nat)), AddPasses total add.1 add.2) = clean := by simp
    rw [same]
    exact marks.congr fun k _ => by simp
  | cons add rest ih =>
    have first := marks.addChunk add.1 (small add List.mem_cons_self)
    have all := ih first fun later member => small later (List.mem_cons_of_mem _ member)
    rw [List.forall_mem_cons, ← and_assoc]
    refine all.congr fun k _ => ?_
    rw [List.exists_mem_cons_iff, or_assoc]

end SparseMarks

end ImgEditor
