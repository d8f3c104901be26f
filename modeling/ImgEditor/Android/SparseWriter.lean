import ImgEditor.Android.SparseFormat
import ImgEditor.Core.Bitmask
import ImgEditor.Core.Dd

namespace ImgEditor

open Storage

structure SparseChunk where
  fsBlocknr : Nat
  count : Nat

structure AndroidSparseInput where
  blksz : Nat
  totalBlks : Nat
  error : Nat
  chunkBitmasks : Option Bitmask

def androidSparseInit (blksz totalBlks : Nat) : AndroidSparseInput :=
  ⟨blksz, totalBlks, 0, some (allocBitmask totalBlks)⟩

def androidSparseAddChunk (input : AndroidSparseInput) (fsBlocknr count : Nat) :
    Int × AndroidSparseInput :=
  match input.chunkBitmasks with
  | none => (-1, input)
  | some bitmask =>
    let (ret, bitmask) := bitmask.setBits fsBlocknr count
    (ret, { input with
      chunkBitmasks := some bitmask
      error := if ret < 0 then input.error + 1 else input.error })

def androidSparseAddChunks (input : AndroidSparseInput) (adds : List (Nat × Nat)) : AndroidSparseInput :=
  adds.foldl (fun input add => (androidSparseAddChunk input add.1 add.2).2) input

/-- `android_sparse_write_t`: the result code, the target and the callback's own data. -/
abbrev AndroidSparseWrite (σ : Type) := Fd → SparseChunk → σ → Int × Fd × σ

def androidSparseAppendDontcare (fdTarget : Fd) (blks : Nat) : Fd :=
  fdTarget.write (ChunkHeader.encode ⟨CHUNK_TYPE_DONT_CARE, 0, blks, 12⟩)

structure SparseFinish (σ : Type) where
  fdTarget : Fd
  blk : Nat
  totalChunks : Nat
  offset : Nat
  ret : Int
  privateData : σ

section Finish

variable {σ : Type}

def sparseFinishGap (fsBlocknr : Nat) (st : SparseFinish σ) : SparseFinish σ :=
  if st.blk = fsBlocknr then st
  else { st with
    fdTarget := androidSparseAppendDontcare st.fdTarget ((fsBlocknr + 2^64 - st.blk) % 2^64)
    blk := fsBlocknr
    offset := (st.offset + 12) % 2^64
    totalChunks := st.totalChunks + 1 }

/-- The body of the loop of `android_sparse_finish`; the flag tells that the callback failed. -/
def sparseFinishStep (blksz : Nat) (writeCb : AndroidSparseWrite σ) (it : Bitmask.ContinueIterator)
    (st : SparseFinish σ) : Bool × SparseFinish σ :=
  let fsBlocknr := toSizeT it.start
  let fsCount := toSizeT it.bits
  let st := { st with fdTarget := st.fdTarget.fileseek st.offset }
  let st := sparseFinishGap fsBlocknr st
  let fdTarget := st.fdTarget.write
    (ChunkHeader.encode ⟨CHUNK_TYPE_RAW, 0, fsCount, fsCount * blksz % 2^64 + 12⟩)
  let (ret, fdTarget, privateData) :=
    writeCb fdTarget ⟨fsBlocknr % 2^32, fsCount % 2^32⟩ st.privateData
  let st := { st with
    fdTarget := fdTarget
    totalChunks := st.totalChunks + 1
    offset := (st.offset + 12) % 2^64
    ret := ret
    privateData := privateData }
  if ret < 0 then (true, st)
  else (false, { st with
    offset := (st.offset + fsCount * blksz) % 2^64
    blk := (st.blk + fsCount) % 2^64 })

def sparseFinishLoop (bitmask : Bitmask) (blksz : Nat) (writeCb : AndroidSparseWrite σ) :
    Nat → Bitmask.ContinueIterator → SparseFinish σ → Option (Bool × SparseFinish σ)
  | 0, _, _ => none
  | fuel + 1, it, st =>
    if it.start < 0 then some (false, st)
    else
      match sparseFinishStep blksz writeCb it st with
      | (true, st) => some (true, st)
      | (false, st) => sparseFinishLoop bitmask blksz writeCb fuel (bitmask.continueNext it) st

def sparseFinishTail (blksz totalBlks : Nat) (st : SparseFinish σ) : SparseFinish σ :=
  let st := if st.blk < totalBlks then
      { st with
        fdTarget := androidSparseAppendDontcare (st.fdTarget.fileseek st.offset) (totalBlks - st.blk)
        totalChunks := st.totalChunks + 1 }
    else st
  let h : SparseHeader := ⟨SPARSE_HEADER_MAGIC, 1, 0, 28, 12, blksz, totalBlks, st.totalChunks, 0⟩
  { st with fdTarget := (st.fdTarget.fileseek 0).write h.encode }

/-- `android_sparse_finish`; `none` when the loop needs more passes than there are blocks. -/
def androidSparseFinish (input : AndroidSparseInput) (fdTarget : Fd) (writeCb : AndroidSparseWrite σ)
    (privateData : σ) : Option (SparseFinish σ) :=
  let st : SparseFinish σ := ⟨fdTarget, 0, 0, 0, -1, privateData⟩
  match input.chunkBitmasks with
  | none => some st
  | some bitmask =>
    if input.error ≠ 0 then some st
    else
      match sparseFinishLoop bitmask input.blksz writeCb (input.totalBlks + 1) bitmask.continueInit
        { st with offset := 28 } with
      | none => none
      | some (true, st) => some st
      | some (false, st) => some (sparseFinishTail input.blksz input.totalBlks st)

end Finish

end ImgEditor
