import ImgEditor.Android.SparseFinish
import ImgEditor.Android.SparseReader

namespace ImgEditor

open Storage

/-- The write callback of a file system: both products are of type `uint32_t`. -/
def writeSparseChunk (junk : Nat → Byte) (blockSize : Nat) : AndroidSparseWrite Fd :=
  fun fdTarget chunk fd =>
    let done := dd64 junk (some fd) (some fdTarget) (mul32 chunk.fsBlocknr blockSize) fdTarget.pos
      (mul32 chunk.count blockSize) (none : Option (BufScan Unit)) ()
    (0, done.dst.getD fdTarget, done.src.getD fd)

def ext2WriteSparseChunk (junk : Nat → Byte) (blockSize : Nat) : AndroidSparseWrite Fd :=
  writeSparseChunk junk blockSize

def xfsWriteSparseChunk (junk : Nat → Byte) (blockSize : Nat) : AndroidSparseWrite Fd :=
  writeSparseChunk junk blockSize

section Callback

variable (junk : Nat → Byte) (blockSize : Nat)

/-- The bytes a call copies: what the source holds from the wrapped offset on. -/
def chunkBytes (fd : Fd) (chunk : SparseChunk) : List Byte :=
  ddStream (some (fd.fileseek (mul32 chunk.fsBlocknr blockSize))) (mul32 chunk.count blockSize)

theorem writeSparseChunk_eq (fdTarget : Fd) (chunk : SparseChunk) (fd : Fd) :
    writeSparseChunk junk blockSize fdTarget chunk fd =
      (0, (fdTarget.fileseek fdTarget.pos).write (chunkBytes blockSize fd chunk),
        (ddAdvance (some (fd.fileseek (mul32 chunk.fsBlocknr blockSize)))
          (chunkBytes blockSize fd chunk).length).getD fd) := by
  obtain ⟨source, target, _, _⟩ := dd64_copy junk (some fd) (some fdTarget)
    (mul32 chunk.fsBlocknr blockSize) fdTarget.pos (mul32 chunk.count blockSize) () (by simp)
  simp only [writeSparseChunk, source, target]
  rfl

theorem chunkBytes_length_le (fd : Fd) (chunk : SparseChunk) :
    (chunkBytes blockSize fd chunk).length ≤ chunk.count * blockSize :=
  Nat.le_trans (ddStream_length_le _ _) (Nat.mod_le _ _)

theorem writeSparseChunk_target (fdTarget : Fd) (chunk : SparseChunk) (fd : Fd) (plain : fdTarget.start = 0)
    (bound : fdTarget.pos < 2^63) :
    (writeSparseChunk junk blockSize fdTarget chunk fd).2.1 =
      fdTarget.write (chunkBytes blockSize fd chunk) := by
  have here : fdTarget.fileseek fdTarget.pos = fdTarget := by
    have position := fdTarget.fileseek_pos fdTarget.pos (by omega)
    have file := fdTarget.fileseek_file fdTarget.pos
    have start := fdTarget.fileseek_start fdTarget.pos
    rw [plain, Nat.zero_add] at position
    cases moved : fdTarget.fileseek fdTarget.pos
    rw [moved] at position file start
    simp only at position file start
    subst position file start
    rfl
  rw [writeSparseChunk_eq, here]

def SourceOf (file : File) (start : Nat) (fd : Fd) : Prop := fd.file = file ∧ fd.start = start

theorem writeSparseChunk_confined (file : File) (start : Nat) :
    Confined blockSize (SourceOf file start) (writeSparseChunk junk blockSize) where
  start := by
    intro fd chunk s call
    rw [writeSparseChunk_target _ _ _ _ _ call.2.1 call.2.2.1]
    exact call.2.1
  outside := by
    intro fd chunk s call i outside
    have length := chunkBytes_length_le blockSize s chunk
    rw [writeSparseChunk_target _ _ _ _ _ call.2.1 call.2.2.1]
    exact File.writeAt_byte_outside _ _ _ _ (by omega)
  grows := by
    intro fd chunk s call
    rw [writeSparseChunk_target _ _ _ _ _ call.2.1 call.2.2.1]
    exact File.size_le_writeAt _ _ _
  bounded := by
    intro fd chunk s call
    have length := chunkBytes_length_le blockSize s chunk
    rw [writeSparseChunk_target _ _ _ _ _ call.2.1 call.2.2.1]
    apply Nat.le_trans (File.writeAt_size_le _ _ _)
    omega
  valid := by
    intro fd chunk s call
    rw [writeSparseChunk_eq]
    simp only [ddAdvance, Option.map_some, Option.getD_some]
    exact ⟨by rw [Fd.fileseek_file, call.1.1], by rw [Fd.fileseek_start, call.1.2]⟩

theorem writeSparseChunk_ret (fdTarget : Fd) (chunk : SparseChunk) (fd : Fd) :
    (writeSparseChunk junk blockSize fdTarget chunk fd).1 = 0 := rfl

end Callback

end ImgEditor
