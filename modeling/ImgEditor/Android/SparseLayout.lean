import ImgEditor.Android.SparseWriter

namespace ImgEditor

open Storage

def runHeader (blksz : Nat) (r : Run) : ChunkHeader :=
  if r.set then ⟨CHUNK_TYPE_RAW, 0, r.len, r.len * blksz + 12⟩
  else ⟨CHUNK_TYPE_DONT_CARE, 0, r.len, 12⟩

def chunkSize (blksz : Nat) (r : Run) : Nat := if r.set then 12 + r.len * blksz else 12

def chunksSize (blksz : Nat) (runs : List Run) : Nat := (runs.map (chunkSize blksz)).sum

def chunkOffset (blksz : Nat) (runs : List Run) (i : Nat) : Nat := 28 + chunksSize blksz (runs.take i)

@[simp] theorem chunksSize_nil (blksz : Nat) : chunksSize blksz [] = 0 := rfl

@[simp] theorem chunksSize_cons (blksz : Nat) (r : Run) (rest : List Run) :
    chunksSize blksz (r :: rest) = chunkSize blksz r + chunksSize blksz rest := by
  simp [chunksSize]

@[simp] theorem chunksSize_append (blksz : Nat) (left right : List Run) :
    chunksSize blksz (left ++ right) = chunksSize blksz left + chunksSize blksz right := by
  simp [chunksSize]

section Layout

variable {σ : Type}

/-- The calls `android_sparse_finish` makes: a plain target and at least one block. -/
def SparseCall (I : σ → Prop) (fd : Fd) (chunk : SparseChunk) (s : σ) : Prop :=
  I s ∧ fd.start = 0 ∧ fd.pos < 2^63 ∧ 0 < chunk.count

/-- What `android_sparse_finish` relies on: a callback stays inside the data of its own chunk. -/
structure Confined (blksz : Nat) (I : σ → Prop) (writeCb : AndroidSparseWrite σ) : Prop where
  start : ∀ fd chunk s, SparseCall I fd chunk s → (writeCb fd chunk s).2.1.start = 0
  outside : ∀ fd chunk s, SparseCall I fd chunk s →
    ∀ i, i < fd.pos ∨ fd.pos + chunk.count * blksz ≤ i →
      (writeCb fd chunk s).2.1.file.byte i = fd.file.byte i
  grows : ∀ fd chunk s, SparseCall I fd chunk s →
    fd.file.size ≤ (writeCb fd chunk s).2.1.file.size
  bounded : ∀ fd chunk s, SparseCall I fd chunk s →
    (writeCb fd chunk s).2.1.file.size ≤ max fd.file.size (fd.pos + chunk.count * blksz)
  valid : ∀ fd chunk s, SparseCall I fd chunk s → I (writeCb fd chunk s).2.2

/-- The data of run `r`, at `pos`, is what a call of the callback for that run left there. On a
    target that was fresh, the call found nothing behind its own position. -/
def WrittenBy (fresh : Prop) (blksz : Nat) (I : σ → Prop) (writeCb : AndroidSparseWrite σ) (f : File)
    (pos : Nat) (r : Run) : Prop :=
  ∃ before s, SparseCall I before ⟨r.start, r.len⟩ s ∧ before.pos = pos ∧
    (fresh → before.file.size ≤ pos) ∧
    (writeCb before ⟨r.start, r.len⟩ s).2.1.file.size ≤ f.size ∧
    f.slice pos (r.len * blksz) =
      (writeCb before ⟨r.start, r.len⟩ s).2.1.file.slice pos (r.len * blksz)

def ChunksAt (fresh : Prop) (blksz : Nat) (I : σ → Prop) (writeCb : AndroidSparseWrite σ) (f : File) :
    Nat → List Run → Prop
  | _, [] => True
  | offset, r :: rest =>
    f.Holds offset (runHeader blksz r).encode ∧
      (r.set = true → WrittenBy fresh blksz I writeCb f (offset + 12) r) ∧
      ChunksAt fresh blksz I writeCb f (offset + chunkSize blksz r) rest

variable {fresh : Prop} {blksz : Nat} {I : σ → Prop} {writeCb : AndroidSparseWrite σ}

theorem ChunksAt.mono {f g : File} {offset : Nat} {runs : List Run}
    (chunks : ChunksAt fresh blksz I writeCb f offset runs) (grows : f.size ≤ g.size)
    (same : ∀ i, offset ≤ i → i < offset + chunksSize blksz runs → g.byte i = f.byte i) :
    ChunksAt fresh blksz I writeCb g offset runs := by
  induction runs generalizing offset with
  | nil => trivial
  | cons r rest ih =>
    obtain ⟨header, data, tail⟩ := chunks
    rw [chunksSize_cons] at same
    have size : 12 ≤ chunkSize blksz r := by
      unfold chunkSize
      split <;> omega
    refine ⟨header.mono grows ?_, ?_, ih tail ?_⟩
    · intro i lower upper
      rw [ChunkHeader.encode_length] at upper
      exact same i lower (by omega)
    · intro raw
      obtain ⟨before, s, call, pos, tight, bound, slice⟩ := data raw
      refine ⟨before, s, call, pos, tight, Nat.le_trans bound grows, ?_⟩
      rw [← slice]
      apply File.slice_congr
      intro i inside
      apply same
      · omega
      · simp only [chunkSize, raw, ↓reduceIte]
        omega
    · intro i lower upper
      exact same i (by omega) (by omega)

theorem ChunksAt.append {f : File} {offset : Nat} {left right : List Run}
    (first : ChunksAt fresh blksz I writeCb f offset left)
    (second : ChunksAt fresh blksz I writeCb f (offset + chunksSize blksz left) right) :
    ChunksAt fresh blksz I writeCb f offset (left ++ right) := by
  induction left generalizing offset with
  | nil => exact second
  | cons r rest ih =>
    obtain ⟨header, data, tail⟩ := first
    rw [chunksSize_cons, ← Nat.add_assoc] at second
    exact ⟨header, data, ih tail second⟩

theorem ChunksAt.get {f : File} {offset : Nat} {runs : List Run}
    (chunks : ChunksAt fresh blksz I writeCb f offset runs) {i : Nat} {r : Run} (found : runs[i]? = some r) :
    f.Holds (offset + chunksSize blksz (runs.take i)) (runHeader blksz r).encode ∧
      (r.set = true → WrittenBy fresh blksz I writeCb f (offset + chunksSize blksz (runs.take i) + 12) r) := by
  induction runs generalizing offset i with
  | nil => simp at found
  | cons s rest ih =>
    obtain ⟨header, data, tail⟩ := chunks
    cases i with
    | zero =>
      simp only [List.getElem?_cons_zero, Option.some.injEq] at found
      subst found
      exact ⟨header, data⟩
    | succ i =>
      have inner := ih tail (i := i) (by simpa using found)
      rwa [Nat.add_assoc offset, ← chunksSize_cons, ← List.take_succ_cons] at inner

/-- One stretch of `android_sparse_finish`: it appends the chunks of `runs` at the current offset. -/
structure Emitted (fresh : Prop) (blksz : Nat) (I : σ → Prop) (writeCb : AndroidSparseWrite σ)
    (st st' : SparseFinish σ) (runs : List Run) : Prop where
  count : st'.totalChunks = st.totalChunks + runs.length
  offset : st'.offset = st.offset + chunksSize blksz runs
  chunks : ChunksAt fresh blksz I writeCb st'.fdTarget.file st.offset runs
  below : ∀ i, i < st.offset → st'.fdTarget.file.byte i = st.fdTarget.file.byte i
  grows : st.fdTarget.file.size ≤ st'.fdTarget.file.size
  start : st'.fdTarget.start = 0
  valid : I st'.privateData
  tight : fresh → st'.fdTarget.file.size ≤ st'.offset

theorem Emitted.refl (st : SparseFinish σ) (start : st.fdTarget.start = 0) (valid : I st.privateData)
    (tight : fresh → st.fdTarget.file.size ≤ st.offset) : Emitted fresh blksz I writeCb st st [] :=
  ⟨rfl, rfl, trivial, fun _ _ => rfl, Nat.le_refl _, start, valid, tight⟩

theorem Emitted.trans {st st' st'' : SparseFinish σ} {left right : List Run}
    (first : Emitted fresh blksz I writeCb st st' left) (second : Emitted fresh blksz I writeCb st' st'' right) :
    Emitted fresh blksz I writeCb st st'' (left ++ right) where
  count := by rw [second.count, first.count, List.length_append, Nat.add_assoc]
  offset := by rw [second.offset, first.offset, chunksSize_append, Nat.add_assoc]
  chunks := by
    apply ChunksAt.append
    · apply first.chunks.mono second.grows
      intro i _ upper
      exact second.below i (by rw [first.offset]; exact upper)
    · rw [← first.offset]
      exact second.chunks
  below := by
    intro i bound
    rw [second.below i (by rw [first.offset]; omega), first.below i bound]
  grows := Nat.le_trans first.grows second.grows
  start := second.start
  valid := second.valid
  tight := second.tight

theorem runHeader_dontcare (blksz start len : Nat) :
    runHeader blksz ⟨start, len, false⟩ = ⟨CHUNK_TYPE_DONT_CARE, 0, len, 12⟩ := rfl

theorem runHeader_raw (blksz start len : Nat) :
    runHeader blksz ⟨start, len, true⟩ = ⟨CHUNK_TYPE_RAW, 0, len, len * blksz + 12⟩ := rfl

theorem encode_ne_nil (ch : ChunkHeader) : ch.encode ≠ [] := by
  intro empty
  have length := ch.encode_length
  simp [empty] at length

theorem dontcare_emitted (st : SparseFinish σ) (len next : Nat) (start : st.fdTarget.start = 0)
    (position : st.fdTarget.pos = st.offset) (valid : I st.privateData)
    (tight : fresh → st.fdTarget.file.size ≤ st.offset) :
    Emitted fresh blksz I writeCb st
      { st with
        fdTarget := androidSparseAppendDontcare st.fdTarget len
        blk := next
        offset := st.offset + 12
        totalChunks := st.totalChunks + 1 } [⟨st.blk, len, false⟩] where
  count := rfl
  offset := rfl
  chunks := by
    refine ⟨?_, ?_, trivial⟩
    · rw [runHeader_dontcare, ← position]
      exact File.writeAt_holds _ _ _ (encode_ne_nil _)
    · intro raw
      cases raw
  below := by
    intro i bound
    exact File.writeAt_byte_outside _ _ _ _ (Or.inl (by omega))
  grows := File.size_le_writeAt _ _ _
  start := start
  valid := valid
  tight := by
    intro empty
    have before := tight empty
    apply Nat.le_trans (File.writeAt_size_le _ _ _)
    rw [ChunkHeader.encode_length, position]
    simp only
    omega

/-- The runs in front of and including the run of set bits `[k, e)`, seen from block `lo`. -/
def nextRuns (lo k e : Nat) : List Run :=
  (if lo = k then [] else [⟨lo, k - lo, false⟩]) ++ [⟨k, e - k, true⟩]

theorem sparseFinishGap_emitted (blksz : Nat) (writeCb : AndroidSparseWrite σ) (st : SparseFinish σ) (k : Nat) (order : st.blk ≤ k) (range : k < 2^32)
    (start : st.fdTarget.start = 0) (position : st.fdTarget.pos = st.offset) (valid : I st.privateData)
    (tight : fresh → st.fdTarget.file.size ≤ st.offset) (bound : st.offset + 12 < 2^64) :
    Emitted fresh blksz I writeCb st (sparseFinishGap k st)
        (if st.blk = k then [] else [⟨st.blk, k - st.blk, false⟩]) ∧
      (sparseFinishGap k st).fdTarget.pos = (sparseFinishGap k st).offset ∧
      (sparseFinishGap k st).blk = k := by
  unfold sparseFinishGap
  by_cases adjacent : st.blk = k
  · simp only [adjacent, ↓reduceIte, and_true]
    exact ⟨Emitted.refl st start valid tight, position⟩
  · have gap : (k + 2^64 - st.blk) % 2^64 = k - st.blk := by omega
    simp only [adjacent, ↓reduceIte, and_true, gap, Nat.mod_eq_of_lt bound]
    refine ⟨dontcare_emitted st (k - st.blk) k start position valid tight, ?_⟩
    simp [androidSparseAppendDontcare, position]

/-- The loop body after the gap: the RAW header, then the callback. -/
def sparseFinishRaw (blksz : Nat) (writeCb : AndroidSparseWrite σ) (start len : Nat)
    (st : SparseFinish σ) : Int × Fd × σ :=
  writeCb (st.fdTarget.write (runHeader blksz ⟨start, len, true⟩).encode) ⟨start, len⟩ st.privateData

theorem sparseFinishRaw_emitted (confined : Confined blksz I writeCb) (st : SparseFinish σ)
    (len next : Nat) (positive : 0 < len) (start : st.fdTarget.start = 0)
    (position : st.fdTarget.pos = st.offset) (valid : I st.privateData)
    (tight : fresh → st.fdTarget.file.size ≤ st.offset) (bound : st.offset + 12 < 2^63) :
    Emitted fresh blksz I writeCb st
      { st with
        fdTarget := (sparseFinishRaw blksz writeCb st.blk len st).2.1
        blk := next
        offset := st.offset + 12 + len * blksz
        totalChunks := st.totalChunks + 1
        ret := (sparseFinishRaw blksz writeCb st.blk len st).1
        privateData := (sparseFinishRaw blksz writeCb st.blk len st).2.2 } [⟨st.blk, len, true⟩] := by
  have opened : (st.fdTarget.write (runHeader blksz ⟨st.blk, len, true⟩).encode).start = 0 := start
  have here : (st.fdTarget.write (runHeader blksz ⟨st.blk, len, true⟩).encode).pos = st.offset + 12 := by
    simp [position]
  have call : SparseCall I (st.fdTarget.write (runHeader blksz ⟨st.blk, len, true⟩).encode)
      ⟨st.blk, len⟩ st.privateData := ⟨valid, opened, by rw [here]; exact bound, positive⟩
  have written : ∀ i, i < st.offset + 12 ∨ st.offset + 12 + len * blksz ≤ i →
      (sparseFinishRaw blksz writeCb st.blk len st).2.1.file.byte i =
        (st.fdTarget.write (runHeader blksz ⟨st.blk, len, true⟩).encode).file.byte i := by
    intro i outside
    rw [← here] at outside
    exact confined.outside _ _ _ call i outside
  have grows : (st.fdTarget.write (runHeader blksz ⟨st.blk, len, true⟩).encode).file.size ≤
      (sparseFinishRaw blksz writeCb st.blk len st).2.1.file.size :=
    confined.grows _ _ _ call
  have header : (st.fdTarget.write (runHeader blksz ⟨st.blk, len, true⟩).encode).file.Holds st.offset
      (runHeader blksz ⟨st.blk, len, true⟩).encode := by
    rw [Fd.write_file, position]
    exact File.writeAt_holds _ _ _ (encode_ne_nil _)
  have behind : fresh →
      (st.fdTarget.write (runHeader blksz ⟨st.blk, len, true⟩).encode).file.size ≤ st.offset + 12 := by
    intro empty
    have before := tight empty
    apply Nat.le_trans (File.writeAt_size_le _ _ _)
    rw [ChunkHeader.encode_length, position]
    omega
  refine ⟨rfl, ?_, ⟨?_, ?_, trivial⟩, ?_, ?_, ?_, ?_, ?_⟩
  · simp [chunkSize, Nat.add_assoc]
  · apply header.mono grows
    intro i lower upper
    rw [ChunkHeader.encode_length] at upper
    exact written i (Or.inl upper)
  · intro _
    exact ⟨_, st.privateData, call, here, behind, Nat.le_refl _, rfl⟩
  · intro i bound
    rw [written i (Or.inl (by omega))]
    exact File.writeAt_byte_outside _ _ _ _ (Or.inl (by omega))
  · exact Nat.le_trans (File.size_le_writeAt _ _ _) grows
  · exact confined.start _ _ _ call
  · exact confined.valid _ _ _ call
  · intro empty
    have before := behind empty
    have after := confined.bounded _ _ _ call
    rw [here] at after
    simp only [sparseFinishRaw] at after ⊢
    omega

theorem seek_emitted (st : SparseFinish σ) (start : st.fdTarget.start = 0) (valid : I st.privateData)
    (tight : fresh → st.fdTarget.file.size ≤ st.offset) :
    Emitted fresh blksz I writeCb st { st with fdTarget := st.fdTarget.fileseek st.offset } [] where
  count := rfl
  offset := rfl
  chunks := trivial
  below := fun _ _ => by rw [Fd.fileseek_file]
  grows := by rw [Fd.fileseek_file]
  start := by rw [Fd.fileseek_start, start]
  valid := valid
  tight := by
    rw [Fd.fileseek_file]
    exact tight

/-- A step goes to its offset and writes the chunk of the gap in front of its run. -/
theorem sparseFinishGap_ahead (st : SparseFinish σ) (k : Nat) (order : st.blk ≤ k) (range : k < 2^32)
    (start : st.fdTarget.start = 0) (valid : I st.privateData) (tight : fresh → st.fdTarget.file.size ≤ st.offset)
    (bound : st.offset + 12 < 2^63) :
    let mid := sparseFinishGap k { st with fdTarget := st.fdTarget.fileseek st.offset }
    Emitted fresh blksz I writeCb st mid (if st.blk = k then [] else [⟨st.blk, k - st.blk, false⟩]) ∧
      mid.fdTarget.pos = mid.offset ∧ mid.blk = k := by
  have position : (st.fdTarget.fileseek st.offset).pos = st.offset := by
    rw [Fd.fileseek_pos _ _ (by omega), start, Nat.zero_add]
  have seek : Emitted fresh blksz I writeCb st _ [] := seek_emitted st start valid tight
  have gap := sparseFinishGap_emitted blksz writeCb
    { st with fdTarget := st.fdTarget.fileseek st.offset } k order range seek.start position
    seek.valid seek.tight (by simp only; omega)
  have ahead := seek.trans gap.1
  rw [List.nil_append] at ahead
  exact ⟨ahead, gap.2⟩

theorem sparseFinishStep_emitted (confined : Confined blksz I writeCb) (it : Bitmask.ContinueIterator)
    (st : SparseFinish σ) (k e : Nat) (first : it.start = k) (count : it.bits = (e - k : Nat))
    (order : st.blk ≤ k) (after : k < e) (range : e < 2^32) (start : st.fdTarget.start = 0)
    (valid : I st.privateData) (tight : fresh → st.fdTarget.file.size ≤ st.offset)
    (bound : st.offset + chunksSize blksz (nextRuns st.blk k e) < 2^63) :
    (∃ fd chunk s, I s ∧ (sparseFinishStep blksz writeCb it st).2.ret = (writeCb fd chunk s).1) ∧
    ((sparseFinishStep blksz writeCb it st).1 = true ∧ (sparseFinishStep blksz writeCb it st).2.ret < 0 ∨
      (sparseFinishStep blksz writeCb it st).1 = false ∧ 0 ≤ (sparseFinishStep blksz writeCb it st).2.ret ∧
      (sparseFinishStep blksz writeCb it st).2.blk = e ∧
      Emitted fresh blksz I writeCb st (sparseFinishStep blksz writeCb it st).2 (nextRuns st.blk k e)) := by
  simp only [nextRuns, chunksSize_append, chunksSize_cons, chunksSize_nil, Nat.add_zero] at bound
  have rawSize : chunkSize blksz ⟨k, e - k, true⟩ = 12 + (e - k) * blksz := rfl
  rw [rawSize] at bound
  have blknr : toSizeT it.start = k := by rw [first, toSizeT_natCast (by omega)]
  have length : toSizeT it.bits = e - k := by rw [count, toSizeT_natCast (by omega)]
  have gap := @sparseFinishGap_ahead _ fresh blksz I writeCb st k order (by omega) start valid tight (by omega)
  simp only [sparseFinishStep, blknr, length]
  generalize sparseFinishGap k { st with fdTarget := st.fdTarget.fileseek st.offset } = mid at gap
  obtain ⟨ahead, aligned, here⟩ := gap
  have offset := ahead.offset
  have raw := sparseFinishRaw_emitted confined mid (e - k) e (by omega) ahead.start aligned ahead.valid
    ahead.tight (by omega)
  have encoded : (runHeader blksz ⟨k, e - k, true⟩).encode =
      ChunkHeader.encode ⟨CHUNK_TYPE_RAW, 0, e - k, (e - k) * blksz % 2^64 + 12⟩ := by
    rw [runHeader_raw, Nat.mod_eq_of_lt (show (e - k) * blksz < 2^64 by omega)]
  have call : sparseFinishRaw blksz writeCb k (e - k) mid =
      writeCb (mid.fdTarget.write
        (ChunkHeader.encode ⟨CHUNK_TYPE_RAW, 0, e - k, (e - k) * blksz % 2^64 + 12⟩))
        ⟨k % 2^32, (e - k) % 2^32⟩ mid.privateData := by
    rw [sparseFinishRaw, encoded, Nat.mod_eq_of_lt (show k < 2^32 by omega),
      Nat.mod_eq_of_lt (show e - k < 2^32 by omega)]
  rw [← call]
  rw [here] at raw
  by_cases failed : (sparseFinishRaw blksz writeCb k (e - k) mid).1 < 0
  · simp only [failed, ↓reduceIte, reduceCtorEq, false_and, or_false, and_true]
    exact ⟨_, _, _, ahead.valid, rfl⟩
  · simp only [failed, ↓reduceIte]
    refine ⟨⟨_, _, _, ahead.valid, rfl⟩, Or.inr ⟨trivial, by omega, ?_, ?_⟩⟩
    · rw [here]
      omega
    · have joined := ahead.trans raw
      rw [Nat.mod_eq_of_lt (show mid.offset + 12 < 2^64 by omega),
        Nat.mod_eq_of_lt (show mid.offset + 12 + (e - k) * blksz < 2^64 by omega), here,
        Nat.mod_eq_of_lt (show k + (e - k) < 2^64 by omega), Nat.add_sub_of_le (Nat.le_of_lt after)]
      exact joined

end Layout

end ImgEditor
