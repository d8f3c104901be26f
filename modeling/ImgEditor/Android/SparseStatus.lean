import ImgEditor.Android.SparseWriter
import Mathlib.Logic.Function.Iterate

namespace ImgEditor

open Storage

/-- What `android_sparse_finish` does with its target. It does not look at the result of a write(2). -/
structure SparseOps (τ σ : Type) where
  fileseek : τ → Nat → τ
  write : τ → List Byte → τ
  writeCb : τ → SparseChunk → σ → Int × τ × σ

structure SparseEmit (τ σ : Type) where
  target : τ
  blk : Nat
  totalChunks : Nat
  offset : Nat
  ret : Int
  privateData : σ

section Emit

variable {τ σ : Type} (ops : SparseOps τ σ)

def sparseAppendDontcare (target : τ) (blks : Nat) : τ :=
  ops.write target (ChunkHeader.encode ⟨CHUNK_TYPE_DONT_CARE, 0, blks, 12⟩)

def sparseEmitGap (fsBlocknr : Nat) (st : SparseEmit τ σ) : SparseEmit τ σ :=
  if st.blk = fsBlocknr then st
  else { st with
    target := sparseAppendDontcare ops st.target ((fsBlocknr + 2^64 - st.blk) % 2^64)
    blk := fsBlocknr
    offset := (st.offset + 12) % 2^64
    totalChunks := st.totalChunks + 1 }

def sparseEmitStep (blksz : Nat) (it : Bitmask.ContinueIterator) (st : SparseEmit τ σ) : Bool × SparseEmit τ σ :=
  let fsBlocknr := toSizeT it.start
  let fsCount := toSizeT it.bits
  let st := { st with target := ops.fileseek st.target st.offset }
  let st := sparseEmitGap ops fsBlocknr st
  let target := ops.write st.target
    (ChunkHeader.encode ⟨CHUNK_TYPE_RAW, 0, fsCount, fsCount * blksz % 2^64 + 12⟩)
  let (ret, target, privateData) := ops.writeCb target ⟨fsBlocknr % 2^32, fsCount % 2^32⟩ st.privateData
  let st := { st with
    target := target
    totalChunks := st.totalChunks + 1
    offset := (st.offset + 12) % 2^64
    ret := ret
    privateData := privateData }
  if ret < 0 then (true, st)
  else (false, { st with
    offset := (st.offset + fsCount * blksz) % 2^64
    blk := (st.blk + fsCount) % 2^64 })

def sparseEmitLoop (bitmask : Bitmask) (blksz : Nat) :
    Nat → Bitmask.ContinueIterator → SparseEmit τ σ → Option (Bool × SparseEmit τ σ)
  | 0, _, _ => none
  | fuel + 1, it, st =>
    if it.start < 0 then some (false, st)
    else
      match sparseEmitStep ops blksz it st with
      | (true, st) => some (true, st)
      | (false, st) => sparseEmitLoop bitmask blksz fuel (bitmask.continueNext it) st

def sparseEmitTail (blksz totalBlks : Nat) (st : SparseEmit τ σ) : SparseEmit τ σ :=
  let st := if st.blk < totalBlks then
      { st with
        target := sparseAppendDontcare ops (ops.fileseek st.target st.offset) (totalBlks - st.blk)
        totalChunks := st.totalChunks + 1 }
    else st
  let h : SparseHeader := ⟨SPARSE_HEADER_MAGIC, 1, 0, 28, 12, blksz, totalBlks, st.totalChunks, 0⟩
  { st with target := ops.write (ops.fileseek st.target 0) h.encode }

/-- `android_sparse_finish` on any target; `none` when its loop needs `fuel` or more passes. -/
def androidSparseEmit (fuel : Nat) (input : AndroidSparseInput) (target : τ) (privateData : σ) :
    Option (SparseEmit τ σ) :=
  let st : SparseEmit τ σ := ⟨target, 0, 0, 0, -1, privateData⟩
  match input.chunkBitmasks with
  | none => some st
  | some bitmask =>
    if input.error ≠ 0 then some st
    else
      match sparseEmitLoop ops bitmask input.blksz fuel bitmask.continueInit { st with offset := 28 } with
      | none => none
      | some (true, st) => some st
      | some (false, st) => some (sparseEmitTail ops input.blksz input.totalBlks st)

end Emit

section File

variable {σ : Type} (writeCb : AndroidSparseWrite σ)

def fileOps : SparseOps Fd σ := ⟨Fd.fileseek, Fd.write, writeCb⟩

def SparseEmit.toFinish (st : SparseEmit Fd σ) : SparseFinish σ :=
  ⟨st.target, st.blk, st.totalChunks, st.offset, st.ret, st.privateData⟩

theorem sparseEmitGap_file (fsBlocknr : Nat) (st : SparseEmit Fd σ) :
    (sparseEmitGap (fileOps writeCb) fsBlocknr st).toFinish = sparseFinishGap fsBlocknr st.toFinish := by
  have blk : st.toFinish.blk = st.blk := rfl
  by_cases here : st.blk = fsBlocknr
  · rw [sparseEmitGap, if_pos here, sparseFinishGap, if_pos (blk.trans here)]
  · rw [sparseEmitGap, if_neg here, sparseFinishGap, if_neg (fun same => here (blk.symm.trans same))]
    rfl

theorem sparseEmitStep_file (blksz : Nat) (it : Bitmask.ContinueIterator) (st : SparseEmit Fd σ) :
    (fun out : Bool × SparseEmit Fd σ => (out.1, out.2.toFinish)) (sparseEmitStep (fileOps writeCb) blksz it st) =
      sparseFinishStep blksz writeCb it st.toFinish := by
  have gap := sparseEmitGap_file writeCb (toSizeT it.start) { st with target := st.target.fileseek st.offset }
  have seek : ({ st with target := st.target.fileseek st.offset } : SparseEmit Fd σ).toFinish =
      { st.toFinish with fdTarget := st.toFinish.fdTarget.fileseek st.toFinish.offset } := rfl
  rw [seek] at gap
  simp only [sparseEmitStep, sparseFinishStep, ← gap]
  have target : (fileOps writeCb).fileseek = Fd.fileseek := rfl
  rw [target]
  generalize sparseEmitGap (fileOps writeCb) (toSizeT it.start)
    { st with target := st.target.fileseek st.offset } = mid
  by_cases failed : (writeCb (mid.target.write (ChunkHeader.encode
      ⟨CHUNK_TYPE_RAW, 0, toSizeT it.bits, toSizeT it.bits * blksz % 2^64 + 12⟩))
      ⟨toSizeT it.start % 2^32, toSizeT it.bits % 2^32⟩ mid.privateData).1 < 0
  · simp only [fileOps, SparseEmit.toFinish, failed, ↓reduceIte]
  · simp only [fileOps, SparseEmit.toFinish, failed, ↓reduceIte]

theorem sparseEmitLoop_file (bitmask : Bitmask) (blksz fuel : Nat) (it : Bitmask.ContinueIterator)
    (st : SparseEmit Fd σ) :
    (sparseEmitLoop (fileOps writeCb) bitmask blksz fuel it st).map (fun out => (out.1, out.2.toFinish)) =
      sparseFinishLoop bitmask blksz writeCb fuel it st.toFinish := by
  induction fuel generalizing it st with
  | zero => rfl
  | succ fuel ih =>
    rw [sparseEmitLoop, sparseFinishLoop]
    by_cases ended : it.start < 0
    · rw [if_pos ended, if_pos ended]
      rfl
    · rw [if_neg ended, if_neg ended, ← sparseEmitStep_file]
      obtain ⟨failed, next⟩ := sparseEmitStep (fileOps writeCb) blksz it st
      cases failed with
      | true => rfl
      | false => exact ih _ next

theorem androidSparseEmit_file (input : AndroidSparseInput) (fdTarget : Fd) (privateData : σ) :
    (androidSparseEmit (fileOps writeCb) (input.totalBlks + 1) input fdTarget privateData).map SparseEmit.toFinish =
      androidSparseFinish input fdTarget writeCb privateData := by
  unfold androidSparseEmit androidSparseFinish
  cases input.chunkBitmasks with
  | none => rfl
  | some bitmask =>
    dsimp only
    by_cases dirty : input.error ≠ 0
    · rw [if_pos dirty, if_pos dirty]
      rfl
    · rw [if_neg dirty, if_neg dirty]
      have loop := sparseEmitLoop_file writeCb bitmask input.blksz (input.totalBlks + 1) bitmask.continueInit
        ⟨fdTarget, 0, 0, 28, -1, privateData⟩
      have start : (⟨fdTarget, 0, 0, 28, -1, privateData⟩ : SparseEmit Fd σ).toFinish =
          ⟨fdTarget, 0, 0, 28, -1, privateData⟩ := rfl
      rw [start] at loop
      rw [← loop]
      cases sparseEmitLoop (fileOps writeCb) bitmask input.blksz (input.totalBlks + 1) bitmask.continueInit
        ⟨fdTarget, 0, 0, 28, -1, privateData⟩ with
      | none => rfl
      | some out =>
        obtain ⟨failed, st⟩ := out
        cases failed with
        | true => rfl
        | false =>
          simp only [Option.map_some, sparseEmitTail, sparseFinishTail, SparseEmit.toFinish, Option.some.injEq]
          split
          · rfl
          · rfl

end File

/-- Which write(2) calls of `android_sparse_finish` succeed, and what its callback returns, call by call. -/
structure SparseOutcomes where
  write : Nat → Bool
  callback : Nat → Int

structure SparseCalls where
  writes : Nat
  callbacks : Nat

def SparseOutcomes.ops (o : SparseOutcomes) : SparseOps SparseCalls Unit where
  fileseek calls _ := calls
  write calls _ := { calls with writes := calls.writes + 1 }
  writeCb calls _ _ := (o.callback calls.callbacks, { calls with callbacks := calls.callbacks + 1 }, ())

def AddFails : AndroidSparseInput → List (Nat × Nat) → Prop
  | _, [] => False
  | input, add :: rest =>
    (androidSparseAddChunk input add.1 add.2).1 < 0 ∨ AddFails (androidSparseAddChunk input add.1 add.2).2 rest

theorem androidSparseAddChunk_some {input : AndroidSparseInput} {bitmask : Bitmask}
    (present : input.chunkBitmasks = some bitmask) (fsBlocknr count : Nat) :
    (∃ next, (androidSparseAddChunk input fsBlocknr count).2.chunkBitmasks = some next) ∧
      ((androidSparseAddChunk input fsBlocknr count).2.error = 0 ↔
        input.error = 0 ∧ ¬ (androidSparseAddChunk input fsBlocknr count).1 < 0) := by
  rw [androidSparseAddChunk, present]
  constructor
  · exact ⟨_, rfl⟩
  · by_cases failed : (bitmask.setBits fsBlocknr count).1 < 0
    · simp [failed]
    · simp [failed]

theorem androidSparseAddChunks_error {input : AndroidSparseInput} {bitmask : Bitmask}
    (present : input.chunkBitmasks = some bitmask) (adds : List (Nat × Nat)) :
    (∃ marked, (androidSparseAddChunks input adds).chunkBitmasks = some marked) ∧
      ((androidSparseAddChunks input adds).error = 0 ↔ input.error = 0 ∧ ¬ AddFails input adds) := by
  induction adds generalizing input bitmask with
  | nil => exact ⟨⟨bitmask, present⟩, by simp [androidSparseAddChunks, AddFails]⟩
  | cons add rest ih =>
    obtain ⟨⟨next, marked⟩, first⟩ := androidSparseAddChunk_some present add.1 add.2
    obtain ⟨last, others⟩ := ih marked
    constructor
    · exact last
    · rw [AddFails, not_or, ← and_assoc, ← first]
      exact others

theorem androidSparseAddChunks_totalBlks (input : AndroidSparseInput) (adds : List (Nat × Nat)) :
    (androidSparseAddChunks input adds).totalBlks = input.totalBlks := by
  induction adds generalizing input with
  | nil => rfl
  | cons add rest ih =>
    have first : (androidSparseAddChunk input add.1 add.2).2.totalBlks = input.totalBlks := by
      rw [androidSparseAddChunk]
      split
      · rfl
      · rfl
    exact (ih _).trans first

def Bitmask.pass (bitmask : Bitmask) (i : Nat) : Bitmask.ContinueIterator :=
  bitmask.continueNext^[i] bitmask.continueInit

theorem Bitmask.pass_succ (bitmask : Bitmask) (i : Nat) :
    bitmask.pass (i + 1) = bitmask.continueNext (bitmask.pass i) := Function.iterate_succ_apply' _ _ _

def Bitmask.Passes (bitmask : Bitmask) (n : Nat) : Prop := ∀ i, i < n → ¬ (bitmask.pass i).start < 0

def Bitmask.passBlk (bitmask : Bitmask) : Nat → Nat
  | 0 => 0
  | i + 1 => (toSizeT (bitmask.pass i).start + toSizeT (bitmask.pass i).bits) % 2^64

/-- The chunk headers that the first `n` runs take; a run behind a gap takes two. -/
def Bitmask.passHeaders (bitmask : Bitmask) : Nat → Nat
  | 0 => 0
  | i + 1 => bitmask.passHeaders i + if bitmask.passBlk i = toSizeT (bitmask.pass i).start then 1 else 2

/-- The headers of an image whose bitmask has `n` runs, the one of the image itself included. -/
def Bitmask.imageHeaders (bitmask : Bitmask) (totalBlks n : Nat) : Nat :=
  bitmask.passHeaders n + (if bitmask.passBlk n < totalBlks then 1 else 0) + 1

section Outcomes

variable {o : SparseOutcomes} {bitmask : Bitmask} {blksz : Nat}

structure AtPass (o : SparseOutcomes) (bitmask : Bitmask) (i : Nat) (st : SparseEmit SparseCalls Unit) : Prop where
  passes : bitmask.Passes i
  passed : ∀ j, j < i → 0 ≤ o.callback j
  writes : st.target.writes = bitmask.passHeaders i
  callbacks : st.target.callbacks = i
  blk : st.blk = bitmask.passBlk i
  ret : 0 ≤ st.ret ↔ i ≠ 0

theorem AtPass.step {i : Nat} {st : SparseEmit SparseCalls Unit} (at_ : AtPass o bitmask i st)
    (reached : ¬ (bitmask.pass i).start < 0) :
    if o.callback i < 0 then
      ∃ st', sparseEmitStep o.ops blksz (bitmask.pass i) st = (true, st') ∧ st'.ret < 0 ∧ st'.target.callbacks = i + 1
    else ∃ st', sparseEmitStep o.ops blksz (bitmask.pass i) st = (false, st') ∧ AtPass o bitmask (i + 1) st' := by
  obtain ⟨passes, passed, writes, callbacks, blk, ret⟩ := at_
  obtain ⟨target, blk', total, offset, ret', private_⟩ := st
  simp only at writes callbacks blk ret
  subst blk
  have gap : ∀ calls offset', (sparseEmitGap o.ops (toSizeT (bitmask.pass i).start)
      ⟨calls, bitmask.passBlk i, total, offset', ret', private_⟩).target =
        { calls with writes := calls.writes +
            if bitmask.passBlk i = toSizeT (bitmask.pass i).start then 0 else 1 } ∧
      (sparseEmitGap o.ops (toSizeT (bitmask.pass i).start)
        ⟨calls, bitmask.passBlk i, total, offset', ret', private_⟩).blk = toSizeT (bitmask.pass i).start := by
    intro calls offset'
    rw [sparseEmitGap]
    by_cases here : bitmask.passBlk i = toSizeT (bitmask.pass i).start
    · rw [if_pos here, if_pos here]
      exact ⟨rfl, here⟩
    · rw [if_neg here, if_neg here]
      exact ⟨rfl, rfl⟩
  obtain ⟨calls, moved⟩ := gap target offset
  have seek : o.ops.fileseek target offset = target := rfl
  simp only [sparseEmitStep, seek]
  generalize sparseEmitGap o.ops (toSizeT (bitmask.pass i).start)
    ⟨target, bitmask.passBlk i, total, offset, ret', private_⟩ = mid at calls moved
  by_cases failed : o.callback i < 0
  · rw [if_pos failed]
    simp only [SparseOutcomes.ops, calls, callbacks, failed, ↓reduceIte]
    exact ⟨_, rfl, failed, rfl⟩
  · rw [if_neg failed]
    simp only [SparseOutcomes.ops, calls, callbacks, failed, ↓reduceIte]
    refine ⟨_, rfl, ?_, ?_, ?_, rfl, ?_, ?_⟩
    · intro j below
      by_cases last : j = i
      · rw [last]
        exact reached
      · exact passes j (by omega)
    · intro j below
      by_cases last : j = i
      · rw [last]
        omega
      · exact passed j (by omega)
    · simp only [Bitmask.passHeaders, writes]
      split <;> omega
    · simp only [Bitmask.passBlk, moved]
    · simp only
      omega

/-- How the loop ends: on a failed callback, or behind the last run. -/
inductive LoopEnd (o : SparseOutcomes) (bitmask : Bitmask) : Bool × SparseEmit SparseCalls Unit → Prop where
  | failed (n : Nat) (st : SparseEmit SparseCalls Unit) (passes : bitmask.Passes (n + 1)) (callback : o.callback n < 0)
      (ret : st.ret < 0) (callbacks : st.target.callbacks = n + 1) : LoopEnd o bitmask (true, st)
  | ended (n : Nat) (st : SparseEmit SparseCalls Unit) (at_ : AtPass o bitmask n st)
      (last : (bitmask.pass n).start < 0) : LoopEnd o bitmask (false, st)

theorem sparseEmitLoop_end {fuel i : Nat} {st : SparseEmit SparseCalls Unit} (at_ : AtPass o bitmask i st)
    {out : Bool × SparseEmit SparseCalls Unit}
    (ran : sparseEmitLoop o.ops bitmask blksz fuel (bitmask.pass i) st = some out) : LoopEnd o bitmask out := by
  induction fuel generalizing i st with
  | zero => cases ran
  | succ fuel ih =>
    rw [sparseEmitLoop] at ran
    by_cases last : (bitmask.pass i).start < 0
    · rw [if_pos last] at ran
      obtain rfl := Option.some.inj ran
      exact .ended i st at_ last
    · rw [if_neg last] at ran
      have step := @AtPass.step o bitmask blksz i st at_ last
      split at step
      · rename_i callback
        obtain ⟨st', result, ret, callbacks⟩ := step
        rw [result] at ran
        obtain rfl := Option.some.inj ran
        apply LoopEnd.failed i st' _ callback ret callbacks
        intro j below
        by_cases same : j = i
        · rw [same]
          exact last
        · exact at_.passes j (by omega)
      · obtain ⟨st', result, next⟩ := step
        rw [result] at ran
        simp only at ran
        rw [← bitmask.pass_succ] at ran
        exact ih next ran

theorem sparseEmitLoop_returns {n fuel i : Nat} (stop : (bitmask.pass n).start < 0 ∨ o.callback n < 0)
    (before : i ≤ n) (enough : n < i + fuel) {st : SparseEmit SparseCalls Unit} (at_ : AtPass o bitmask i st) :
    ∃ out, sparseEmitLoop o.ops bitmask blksz fuel (bitmask.pass i) st = some out := by
  induction fuel generalizing i st with
  | zero => omega
  | succ fuel ih =>
    rw [sparseEmitLoop]
    by_cases last : (bitmask.pass i).start < 0
    · rw [if_pos last]
      exact ⟨_, rfl⟩
    · rw [if_neg last]
      have step := @AtPass.step o bitmask blksz i st at_ last
      split at step
      · obtain ⟨st', result, _⟩ := step
        rw [result]
        exact ⟨_, rfl⟩
      · rename_i callback
        obtain ⟨st', result, next⟩ := step
        rw [result]
        simp only
        rw [← bitmask.pass_succ]
        apply ih _ (by omega) next
        have different : i ≠ n := by
          rintro rfl
          exact stop.elim last callback
        omega

end Outcomes

/-- The result of `android_sparse_finish` tells whether every add, every write and every callback succeeded, and
nothing is written after a failed add. -/
def SparseReports (o : SparseOutcomes) (blksz totalBlks : Nat) (adds : List (Nat × Nat)) : Prop :=
  ∃ fuel st, androidSparseEmit o.ops fuel (androidSparseAddChunks (androidSparseInit blksz totalBlks) adds) ⟨0, 0⟩ () =
      some st ∧
    (0 ≤ st.ret ↔ ¬ AddFails (androidSparseInit blksz totalBlks) adds ∧
      (∀ i, i < st.target.writes → o.write i = true) ∧ ∀ i, i < st.target.callbacks → 0 ≤ o.callback i) ∧
    (AddFails (androidSparseInit blksz totalBlks) adds → st.target = ⟨0, 0⟩ ∧ st.ret < 0)

/-- Either the callback fails for a run of the bitmask, or its runs come to an end and there is one exactly when
every header is written. -/
def HeadersMatter (o : SparseOutcomes) (totalBlks : Nat) (bitmask : Bitmask) : Prop :=
  (∃ n, bitmask.Passes (n + 1) ∧ o.callback n < 0) ∨
    ∃ n, bitmask.Passes n ∧ (bitmask.pass n).start < 0 ∧
      (n ≠ 0 ↔ ∀ i, i < bitmask.imageHeaders totalBlks n → o.write i = true)

theorem Passes.unique {bitmask : Bitmask} {m n : Nat} (first : bitmask.Passes m) (last : (bitmask.pass m).start < 0)
    (other : bitmask.Passes n) (ended : (bitmask.pass n).start < 0) : m = n := by
  have below : ¬ m < n := fun below => other m below last
  have above : ¬ n < m := fun above => first n above ended
  omega

theorem sparseEmitTail_outcomes {o : SparseOutcomes} (blksz totalBlks : Nat) (st : SparseEmit SparseCalls Unit) :
    (sparseEmitTail o.ops blksz totalBlks st).ret = st.ret ∧
      (sparseEmitTail o.ops blksz totalBlks st).target.callbacks = st.target.callbacks ∧
      (sparseEmitTail o.ops blksz totalBlks st).target.writes =
        st.target.writes + (if st.blk < totalBlks then 1 else 0) + 1 := by
  by_cases rest : st.blk < totalBlks
  · simp [sparseEmitTail, rest, SparseOutcomes.ops, sparseAppendDontcare]
  · simp [sparseEmitTail, rest, SparseOutcomes.ops]

section Reports

variable {o : SparseOutcomes} {input : AndroidSparseInput} {bitmask : Bitmask}
  (present : input.chunkBitmasks = some bitmask) (clean : input.error = 0)
include present clean

theorem androidSparseEmit_eq (fuel : Nat) : androidSparseEmit o.ops fuel input ⟨0, 0⟩ () =
    (sparseEmitLoop o.ops bitmask input.blksz fuel (bitmask.pass 0) ⟨⟨0, 0⟩, 0, 0, 28, -1, ()⟩).map fun out =>
      if out.1 then out.2 else sparseEmitTail o.ops input.blksz input.totalBlks out.2 := by
  have first : bitmask.pass 0 = bitmask.continueInit := rfl
  simp only [androidSparseEmit, present, clean, ne_eq, not_true_eq_false, ↓reduceIte, first]
  cases sparseEmitLoop o.ops bitmask input.blksz fuel bitmask.continueInit ⟨⟨0, 0⟩, 0, 0, 28, -1, ()⟩ with
  | none => rfl
  | some out =>
    obtain ⟨failed, st⟩ := out
    cases failed with
    | true => rfl
    | false => rfl

omit present clean in
theorem atPass_zero : AtPass o bitmask 0 ⟨⟨0, 0⟩, 0, 0, 28, -1, ()⟩ :=
  ⟨fun _ below => absurd below (Nat.not_lt_zero _), fun _ below => absurd below (Nat.not_lt_zero _), rfl, rfl, rfl,
    by simp⟩

theorem androidSparseEmit_end {fuel : Nat} {st : SparseEmit SparseCalls Unit}
    (ran : androidSparseEmit o.ops fuel input ⟨0, 0⟩ () = some st) :
    (st.ret < 0 ∧ ∃ n, bitmask.Passes (n + 1) ∧ o.callback n < 0 ∧ n < st.target.callbacks) ∨
      ∃ n, bitmask.Passes n ∧ (bitmask.pass n).start < 0 ∧ (∀ i, i < n → 0 ≤ o.callback i) ∧
        st.target = ⟨bitmask.imageHeaders input.totalBlks n, n⟩ ∧ (0 ≤ st.ret ↔ n ≠ 0) := by
  rw [androidSparseEmit_eq present clean] at ran
  obtain ⟨out, loop, rfl⟩ := Option.map_eq_some_iff.mp ran
  cases sparseEmitLoop_end atPass_zero loop with
  | failed n st passes callback ret callbacks =>
    left
    exact ⟨ret, n, passes, callback, by simp only [↓reduceIte]; omega⟩
  | ended n st at_ last =>
    right
    obtain ⟨ret, callbacks, writes⟩ := @sparseEmitTail_outcomes o input.blksz input.totalBlks st
    refine ⟨n, at_.passes, last, at_.passed, ?_, ?_⟩
    · simp only [Bool.false_eq_true, ↓reduceIte]
      rw [at_.writes, at_.blk] at writes
      rw [at_.callbacks] at callbacks
      rw [Bitmask.imageHeaders, ← writes, ← callbacks]
    · simp only [Bool.false_eq_true, ↓reduceIte, ret]
      exact at_.ret

theorem androidSparseEmit_returns {n : Nat} (stop : (bitmask.pass n).start < 0 ∨ o.callback n < 0) :
    ∃ fuel st, androidSparseEmit o.ops fuel input ⟨0, 0⟩ () = some st := by
  obtain ⟨out, loop⟩ := @sparseEmitLoop_returns o bitmask input.blksz n (n + 1) 0 stop (Nat.zero_le n) (by omega)
    _ atPass_zero
  exists n + 1, if out.1 then out.2 else sparseEmitTail o.ops input.blksz input.totalBlks out.2
  rw [androidSparseEmit_eq present clean, loop, Option.map_some]

end Reports

/-- After successful adds the result is right exactly when a callback fails, or there is a run to write and every
header is written, or there is none and a header is not. -/
theorem androidSparseFinish_reports (o : SparseOutcomes) (blksz totalBlks : Nat) (adds : List (Nat × Nat)) :
    SparseReports o blksz totalBlks adds ↔ AddFails (androidSparseInit blksz totalBlks) adds ∨
      ∃ bitmask, (androidSparseAddChunks (androidSparseInit blksz totalBlks) adds).chunkBitmasks = some bitmask ∧
        HeadersMatter o totalBlks bitmask := by
  obtain ⟨⟨bitmask, present⟩, error⟩ := @androidSparseAddChunks_error (androidSparseInit blksz totalBlks) _ rfl adds
  have start : (androidSparseInit blksz totalBlks).error = 0 := rfl
  have total := androidSparseAddChunks_totalBlks (androidSparseInit blksz totalBlks) adds
  rw [show (androidSparseInit blksz totalBlks).totalBlks = totalBlks from rfl] at total
  rw [start, eq_self, true_and] at error
  by_cases added : AddFails (androidSparseInit blksz totalBlks) adds
  · have dirty : (androidSparseAddChunks (androidSparseInit blksz totalBlks) adds).error ≠ 0 :=
      fun clean => error.mp clean added
    have result : androidSparseEmit o.ops 0 (androidSparseAddChunks (androidSparseInit blksz totalBlks) adds)
        ⟨0, 0⟩ () = some ⟨⟨0, 0⟩, 0, 0, 0, -1, ()⟩ := by
      simp only [androidSparseEmit, present, ne_eq, dirty, not_false_eq_true, ↓reduceIte]
    constructor
    · exact fun _ => Or.inl added
    · intro _
      refine ⟨0, _, result, ?_, fun _ => ⟨rfl, by simp⟩⟩
      simp [added]
  · have clean := error.mpr added
    constructor
    · rintro ⟨fuel, st, ran, status, _⟩
      right
      refine ⟨bitmask, present, ?_⟩
      rcases androidSparseEmit_end present clean ran with ⟨_, n, passes, callback, _⟩ | ⟨n, passes, last, ok, calls, ret⟩
      · exact Or.inl ⟨n, passes, callback⟩
      · rw [total] at calls
        rw [ret, calls] at status
        right
        refine ⟨n, passes, last, status.trans ?_⟩
        constructor
        · exact fun all => all.2.1
        · exact fun writes => ⟨added, writes, ok⟩
    · rintro (failed | ⟨other, same, matter⟩)
      · exact absurd failed added
      · obtain rfl : bitmask = other := Option.some.inj (present.symm.trans same)
        have stop : ∃ n, (bitmask.pass n).start < 0 ∨ o.callback n < 0 := by
          rcases matter with ⟨n, _, callback⟩ | ⟨n, _, last, _⟩
          · exact ⟨n, Or.inr callback⟩
          · exact ⟨n, Or.inl last⟩
        obtain ⟨n, stop⟩ := stop
        obtain ⟨fuel, st, ran⟩ := androidSparseEmit_returns present clean stop
        refine ⟨fuel, st, ran, ?_, fun failed => absurd failed added⟩
        rcases androidSparseEmit_end present clean ran with ⟨ret, k, passes, callback, made⟩ |
          ⟨k, passes, last, ok, calls, ret⟩
        · constructor
          · intro positive
            omega
          · rintro ⟨_, _, callbacks⟩
            have positive := callbacks k made
            omega
        · rw [total] at calls
          rw [ret, calls]
          rcases matter with ⟨m, more, callback⟩ | ⟨m, passes', last', headers⟩
          · have below : m < k := by
              by_contra above
              exact more k (by omega) last
            have positive := ok m below
            omega
          · obtain rfl := Passes.unique passes last passes' last'
            rw [headers]
            constructor
            · exact fun writes => ⟨added, writes, ok⟩
            · exact fun all => all.2.1

/-- An image without a single block: nothing fails, and the result is an error. -/
theorem androidSparseFinish_reports_empty :
    ¬ SparseReports ⟨fun _ => true, fun _ => 0⟩ 4096 8 [] := by
  rintro ⟨fuel, st, ran, status, _⟩
  have present : (androidSparseAddChunks (androidSparseInit 4096 8) []).chunkBitmasks = some (allocBitmask 8) := rfl
  have first : ((allocBitmask 8).pass 0).start < 0 := by decide
  rcases androidSparseEmit_end present rfl ran with ⟨_, n, _, callback, _⟩ | ⟨n, passes, _, _, _, ret⟩
  · simp at callback
  · have none : n = 0 := by
      by_contra some
      exact passes 0 (by omega) first
    have good : 0 ≤ st.ret := status.mpr ⟨fun failed => failed, fun _ _ => rfl, fun _ _ => le_refl _⟩
    exact ret.mp good none

end ImgEditor
