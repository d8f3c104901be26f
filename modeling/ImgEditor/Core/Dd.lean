import ImgEditor.Storage.File

namespace ImgEditor

open Storage

/-- An open descriptor. `start` is what `filestart` reports: zero, or the offset of a virtual file. -/
structure Fd where
  file : File
  start : Nat
  pos : Nat

namespace Fd

def created : Fd := ⟨File.empty, 0, 0⟩

def lseek64 (fd : Fd) (offset : Nat) : Fd :=
  if offset % 2^64 < 2^63 then { fd with pos := offset % 2^64 } else fd

def fileseek (fd : Fd) (offset : Nat) : Fd := fd.lseek64 (fd.start + offset)

/-- read(2) transfers at most `0x7ffff000` bytes. -/
def read (fd : Fd) (count : Nat) : List Byte × Fd :=
  let bytes := fd.file.readAt fd.pos (min count 0x7ffff000)
  (bytes, { fd with pos := fd.pos + bytes.length })

def write (fd : Fd) (bytes : List Byte) : Fd :=
  { fd with file := fd.file.writeAt fd.pos bytes, pos := fd.pos + bytes.length }

theorem created_writeAt (bytes : List Byte) : created.file.writeAt 0 bytes = File.ofBytes bytes :=
  (File.ofBytes_eq_writeAt bytes).symm

@[simp] theorem lseek64_file (fd : Fd) (offset : Nat) : (fd.lseek64 offset).file = fd.file := by
  unfold lseek64
  split <;> rfl

@[simp] theorem lseek64_start (fd : Fd) (offset : Nat) : (fd.lseek64 offset).start = fd.start := by
  unfold lseek64
  split <;> rfl

theorem lseek64_pos (fd : Fd) (offset : Nat) (bound : offset < 2^63) :
    (fd.lseek64 offset).pos = offset := by
  unfold lseek64
  rw [if_pos (by omega)]
  exact Nat.mod_eq_of_lt (by omega)

@[simp] theorem fileseek_file (fd : Fd) (offset : Nat) : (fd.fileseek offset).file = fd.file :=
  fd.lseek64_file _

@[simp] theorem fileseek_start (fd : Fd) (offset : Nat) : (fd.fileseek offset).start = fd.start :=
  fd.lseek64_start _

theorem fileseek_pos (fd : Fd) (offset : Nat) (bound : fd.start + offset < 2^63) :
    (fd.fileseek offset).pos = fd.start + offset := fd.lseek64_pos _ bound

@[simp] theorem read_file (fd : Fd) (count : Nat) : (fd.read count).2.file = fd.file := rfl

@[simp] theorem read_start (fd : Fd) (count : Nat) : (fd.read count).2.start = fd.start := rfl

theorem read_bytes (fd : Fd) (count : Nat) (small : count ≤ 0x7ffff000) :
    (fd.read count).1 = fd.file.readAt fd.pos count := by
  simp only [read]
  rw [Nat.min_eq_left small]

@[simp] theorem write_file (fd : Fd) (bytes : List Byte) :
    (fd.write bytes).file = fd.file.writeAt fd.pos bytes := rfl

@[simp] theorem write_start (fd : Fd) (bytes : List Byte) : (fd.write bytes).start = fd.start := rfl

@[simp] theorem write_pos (fd : Fd) (bytes : List Byte) :
    (fd.write bytes).pos = fd.pos + bytes.length := rfl

end Fd

/-- `fileread` repeats read(2) until it has all the bytes. -/
def fileread (fd : Fd) (sz : Nat) : Option (List Byte) :=
  let bytes := fd.file.readAt fd.pos sz
  if bytes.length = sz then some bytes else none

theorem fileread_length {fd : Fd} {sz : Nat} {buf : List Byte} (read : fileread fd sz = some buf) :
    buf.length = sz := by
  simp only [fileread] at read
  split at read
  · rename_i whole
    rw [← Option.some.inj read, whole]
  · cases read

theorem fileread_eq {fd : Fd} {sz : Nat} {buf : List Byte} (read : fileread fd sz = some buf) :
    buf = fd.file.readAt fd.pos sz := by
  simp only [fileread] at read
  split at read
  · exact (Option.some.inj read).symm
  · cases read

theorem fileread_inside {fd : Fd} {sz : Nat} (inside : fd.pos + sz ≤ fd.file.size) :
    fileread fd sz = some (fd.file.slice fd.pos sz) := by
  have whole : fd.file.readAt fd.pos sz = fd.file.slice fd.pos sz := by
    rw [File.readAt, Nat.min_eq_left (Nat.le_sub_of_add_le' inside)]
  rw [fileread, whole]
  exact if_pos (File.slice_length ..)

def ddMaxBufsz : Nat := 2^20

abbrev BufScan (σ : Type) := List Byte → σ → List Byte × σ

structure DdState (σ : Type) where
  src : Option Fd
  dst : Option Fd
  buffer : Nat → Byte
  copied : Nat
  scan : σ

section Dd

variable {σ : Type}

def fillBuffer (buffer : Nat → Byte) (bytes : List Byte) : Nat → Byte :=
  fun i => if i < bytes.length then bytes.getD i 0#8 else buffer i

/-- One pass of the loop of `dd64`; `none` when it breaks out. -/
def ddStep (bufscan : Option (BufScan σ)) (sz : Nat) (st : DdState σ) : Option (Nat × DdState σ) :=
  let szBuster := min ddMaxBufsz sz
  let (bytes, src) := match st.src with
    | some fd => ((fd.read szBuster).1, some (fd.read szBuster).2)
    | none => (List.replicate szBuster 0#8, none)
  let lensrc := bytes.length
  if lensrc = 0 then none
  else
    let buffer := fillBuffer st.buffer bytes
    let (buffer, scan) := match bufscan with
      | some f =>
        let scanned := f ((List.range szBuster).map buffer) st.scan
        (fillBuffer buffer scanned.1, scanned.2)
      | none => (buffer, st.scan)
    let dst := st.dst.map fun fd => fd.write ((List.range lensrc).map buffer)
    some (sz - lensrc, ⟨src, dst, buffer, st.copied + lensrc, scan⟩)

def ddLoop (bufscan : Option (BufScan σ)) : Nat → Nat → DdState σ → DdState σ
  | 0, _, st => st
  | fuel + 1, sz, st =>
    if sz = 0 then st
    else
      match ddStep bufscan sz st with
      | none => st
      | some (sz, st) => ddLoop bufscan fuel sz st

/-- `dd64`. The loop runs at most `sz` times, as every pass copies at least one byte.
    `junk` is what malloc left in the buffer. -/
def dd64 (junk : Nat → Byte) (src dst : Option Fd) (offtSrc offtDst sz : Nat)
    (bufscan : Option (BufScan σ)) (private_data : σ) : DdState σ :=
  if src.isNone ∧ dst.isNone then ⟨src, dst, junk, 0, private_data⟩
  else
    ddLoop bufscan sz sz
      ⟨src.map (·.fileseek offtSrc), dst.map (·.fileseek offtDst), junk, 0, private_data⟩

/-- What a `dd64` call takes from its source in one go. -/
def ddStream : Option Fd → Nat → List Byte
  | some fd, count => fd.file.readAt fd.pos count
  | none, count => List.replicate count 0#8

def ddAdvance (src : Option Fd) (count : Nat) : Option Fd :=
  src.map fun fd => { fd with pos := fd.pos + count }

theorem ddStream_length_le (src : Option Fd) (count : Nat) : (ddStream src count).length ≤ count := by
  cases src with
  | none => simp [ddStream]
  | some fd =>
    rw [ddStream, File.readAt_length]
    exact Nat.min_le_left _ _

theorem ddStream_split (src : Option Fd) {m n : Nat} (le : m ≤ n) :
    ddStream src n = ddStream src m ++
      ddStream (ddAdvance src (ddStream src m).length) (n - (ddStream src m).length) := by
  cases src with
  | none =>
    simp only [ddStream, ddAdvance, Option.map_none, List.length_replicate, List.replicate_append_replicate]
    congr 1
    omega
  | some fd =>
    simp only [ddStream, ddAdvance, Option.map_some, File.readAt_length]
    simp only [File.readAt]
    rw [← File.slice_add]
    congr 1
    omega

theorem ddAdvance_add (src : Option Fd) (m n : Nat) :
    ddAdvance (ddAdvance src m) n = ddAdvance src (m + n) := by
  cases src with
  | none => rfl
  | some fd => simp [ddAdvance, Nat.add_assoc]

@[simp] theorem ddAdvance_zero (src : Option Fd) : ddAdvance src 0 = src := by
  cases src <;> rfl

theorem fillBuffer_map (buffer : Nat → Byte) (bytes : List Byte) :
    (List.range bytes.length).map (fillBuffer buffer bytes) = bytes := by
  apply List.ext_getElem
  · simp
  · intro i _ bound
    simp [fillBuffer, bound]

theorem Fd.write_write (fd : Fd) (left right : List Byte) :
    (fd.write left).write right = fd.write (left ++ right) := by
  simp only [Fd.write, File.writeAt_append, List.length_append, Nat.add_assoc]

theorem ddStep_copy (sz : Nat) (st : DdState σ) :
    let bytes := ddStream st.src (min ddMaxBufsz sz)
    ddStep none sz st =
      if bytes.length = 0 then none
      else some (sz - bytes.length,
        ⟨ddAdvance st.src bytes.length, st.dst.map (·.write bytes), fillBuffer st.buffer bytes,
          st.copied + bytes.length, st.scan⟩) := by
  have small : min ddMaxBufsz sz ≤ 0x7ffff000 := by
    unfold ddMaxBufsz
    omega
  cases source : st.src with
  | none =>
    simp only [ddStep, source, ddStream, ddAdvance, fillBuffer_map, Option.map_none]
    rfl
  | some fd =>
    simp only [ddStep, source, ddStream, ddAdvance, fillBuffer_map, Option.map_some, Fd.read,
      Nat.min_eq_left small]
    rfl

theorem ddLoop_copy (fuel sz : Nat) (st : DdState σ) (enough : sz ≤ fuel) :
    let bytes := ddStream st.src sz
    let done := ddLoop none fuel sz st
    done.src = ddAdvance st.src bytes.length ∧ done.dst = st.dst.map (·.write bytes) ∧
      done.copied = st.copied + bytes.length ∧ done.scan = st.scan := by
  induction fuel generalizing sz st with
  | zero =>
    have zero : sz = 0 := by omega
    have none : ddStream st.src 0 = [] :=
      List.eq_nil_of_length_eq_zero (Nat.le_zero.mp (ddStream_length_le _ _))
    simp [ddLoop, zero, none, Fd.write]
  | succ fuel ih =>
    by_cases zero : sz = 0
    · have none : ddStream st.src 0 = [] :=
        List.eq_nil_of_length_eq_zero (Nat.le_zero.mp (ddStream_length_le _ _))
      simp [ddLoop, zero, none, Fd.write]
    · have step := ddStep_copy sz st
      have split := ddStream_split st.src (Nat.min_le_right ddMaxBufsz sz)
      have positive : 0 < min ddMaxBufsz sz := by
        unfold ddMaxBufsz
        omega
      simp only [ddLoop, zero, ↓reduceIte]
      by_cases drained : (ddStream st.src (min ddMaxBufsz sz)).length = 0
      · have empty : ddStream st.src sz = [] := by
          have nothing := List.eq_nil_of_length_eq_zero drained
          cases source : st.src with
          | none => simp [source, ddStream, ddMaxBufsz, zero] at nothing
          | some fd =>
            rw [source, ddStream] at drained
            rw [ddStream]
            apply List.eq_nil_of_length_eq_zero
            rw [File.readAt_length] at drained ⊢
            omega
        simp only [drained, ↓reduceIte] at step
        simp [step, empty, Fd.write]
      · simp only [drained, ↓reduceIte] at step
        simp only [step]
        have tail := ih (sz - (ddStream st.src (min ddMaxBufsz sz)).length)
          ⟨ddAdvance st.src (ddStream st.src (min ddMaxBufsz sz)).length,
            st.dst.map (·.write (ddStream st.src (min ddMaxBufsz sz))),
            fillBuffer st.buffer (ddStream st.src (min ddMaxBufsz sz)),
            st.copied + (ddStream st.src (min ddMaxBufsz sz)).length, st.scan⟩ (by omega)
        obtain ⟨src, dst, copied, scan⟩ := tail
        refine ⟨?_, ?_, ?_, scan⟩
        · rw [src, split, List.length_append, ddAdvance_add]
        · rw [dst, split]
          cases st.dst <;> simp [Fd.write_write]
        · rw [copied, split, List.length_append, Nat.add_assoc]

/-- `dd64` without a scan callback moves one stretch of its source to its target. -/
theorem dd64_copy (junk : Nat → Byte) (src dst : Option Fd) (offtSrc offtDst sz : Nat) (private_data : σ)
    (opened : ¬ (src.isNone ∧ dst.isNone)) :
    let bytes := ddStream (src.map (·.fileseek offtSrc)) sz
    let done := dd64 junk src dst offtSrc offtDst sz none private_data
    done.src = ddAdvance (src.map (·.fileseek offtSrc)) bytes.length ∧
      done.dst = dst.map (fun fd => (fd.fileseek offtDst).write bytes) ∧
      done.copied = bytes.length ∧ done.scan = private_data := by
  obtain ⟨source, target, copied, scan⟩ := ddLoop_copy sz sz
    (⟨src.map (·.fileseek offtSrc), dst.map (·.fileseek offtDst), junk, 0, private_data⟩ : DdState σ)
    (Nat.le_refl _)
  simp only [dd64, opened, ↓reduceIte]
  refine ⟨source, ?_, ?_, scan⟩
  · rw [target]
    cases dst <;> rfl
  · rw [copied, Nat.zero_add]

theorem dd64_files (junk : Nat → Byte) (src dst : Fd) {offtSrc offtDst : Nat} (sz : Nat)
    (nearSrc : src.start + offtSrc < 2 ^ 63) (nearDst : dst.start + offtDst < 2 ^ 63) :
    ∃ pos, (dd64 junk (some src) (some dst) offtSrc offtDst sz none ()).dst =
      some ⟨dst.file.writeAt (dst.start + offtDst) (src.file.readAt (src.start + offtSrc) sz), dst.start, pos⟩ := by
  obtain ⟨_, target, _, _⟩ := dd64_copy junk (some src) (some dst) offtSrc offtDst sz () (by simp)
  have stream : ddStream ((some src).map (·.fileseek offtSrc)) sz = src.file.readAt (src.start + offtSrc) sz := by
    rw [Option.map_some, ddStream, Fd.fileseek_file, Fd.fileseek_pos src offtSrc nearSrc]
  rw [target, stream, Option.map_some, Fd.write, Fd.fileseek_file, Fd.fileseek_start,
    Fd.fileseek_pos dst offtDst nearDst]
  exact ⟨_, rfl⟩

theorem dd64_copied (junk : Nat → Byte) (src dst : Fd) {offtSrc : Nat} (offtDst sz : Nat) (near : src.start + offtSrc < 2 ^ 63) :
    (dd64 junk (some src) (some dst) offtSrc offtDst sz none ()).copied =
      (src.file.readAt (src.start + offtSrc) sz).length := by
  rcases dd64_copy junk (some src) (some dst) offtSrc offtDst sz () (by simp) with ⟨-, -, copied, -⟩
  rw [copied, Option.map_some, ddStream, Fd.fileseek_file, Fd.fileseek_pos src offtSrc near]

/-- A scan callback that may be run on the pieces of a stream or on all of it. -/
structure Piecewise (f : BufScan σ) : Prop where
  keeps : ∀ bytes s, (f bytes s).1.length = bytes.length
  empty : ∀ s, f [] s = ([], s)
  append : ∀ left right s, left.length = ddMaxBufsz →
    f (left ++ right) s = ((f left s).1 ++ (f right (f left s).2).1, (f right (f left s).2).2)

theorem ddStep_scan {f : BufScan σ} (piecewise : Piecewise f) (sz : Nat) (st : DdState σ) (positive : 0 < sz)
    (full : (ddStream st.src (min ddMaxBufsz sz)).length = min ddMaxBufsz sz) :
    let bytes := ddStream st.src (min ddMaxBufsz sz)
    ∃ buffer, ddStep (some f) sz st =
      some (sz - bytes.length,
        ⟨ddAdvance st.src bytes.length, st.dst.map (·.write (f bytes st.scan).1), buffer,
          st.copied + bytes.length, (f bytes st.scan).2⟩) := by
  have small : min ddMaxBufsz sz ≤ 0x7ffff000 := by
    unfold ddMaxBufsz
    omega
  have some : min ddMaxBufsz sz ≠ 0 := by
    unfold ddMaxBufsz
    omega
  have shown := fillBuffer_map st.buffer (ddStream st.src (min ddMaxBufsz sz))
  have written := fillBuffer_map (fillBuffer st.buffer (ddStream st.src (min ddMaxBufsz sz)))
    (f (ddStream st.src (min ddMaxBufsz sz)) st.scan).1
  rw [piecewise.keeps, full] at written
  rw [full] at shown
  cases source : st.src with
  | none =>
    rw [source] at shown written full
    simp only [ddStream] at shown written full
    simp only [ddStep, source, ddStream, ddAdvance, full, some, ↓reduceIte, shown, written,
      Option.map_none]
    exact ⟨_, rfl⟩
  | some fd =>
    rw [source] at shown written full
    simp only [ddStream] at shown written full
    simp only [ddStep, source, ddStream, ddAdvance, Fd.read, Nat.min_eq_left small, full, some,
      ↓reduceIte, shown, written, Option.map_some]
    exact ⟨_, rfl⟩

theorem ddLoop_scan {f : BufScan σ} (piecewise : Piecewise f) (fuel sz : Nat) (st : DdState σ)
    (enough : sz ≤ fuel) (full : (ddStream st.src sz).length = sz) :
    let bytes := ddStream st.src sz
    let done := ddLoop (some f) fuel sz st
    done.src = ddAdvance st.src sz ∧ done.dst = st.dst.map (·.write (f bytes st.scan).1) ∧
      done.copied = st.copied + sz ∧ done.scan = (f bytes st.scan).2 := by
  induction fuel generalizing sz st with
  | zero =>
    have zero : sz = 0 := by omega
    subst zero
    have none := List.eq_nil_of_length_eq_zero full
    simp [ddLoop, none, piecewise.empty, Fd.write]
  | succ fuel ih =>
    by_cases zero : sz = 0
    · subst zero
      have none := List.eq_nil_of_length_eq_zero full
      simp [ddLoop, none, piecewise.empty, Fd.write]
    · have split := ddStream_split st.src (Nat.min_le_right ddMaxBufsz sz)
      have positive : 0 < min ddMaxBufsz sz := by
        unfold ddMaxBufsz
        omega
      have parts := congrArg List.length split
      have first := ddStream_length_le st.src (min ddMaxBufsz sz)
      have second := ddStream_length_le
        (ddAdvance st.src (ddStream st.src (min ddMaxBufsz sz)).length)
        (sz - (ddStream st.src (min ddMaxBufsz sz)).length)
      rw [full, List.length_append] at parts
      -- a stream of full length has no short read in front of its end
      have whole : (ddStream st.src (min ddMaxBufsz sz)).length = min ddMaxBufsz sz := by
        by_contra short
        cases source : st.src with
        | none => simp [source, ddStream] at short
        | some fd =>
          rw [source, ddStream, File.readAt_length] at short full
          omega
      obtain ⟨buffer, step⟩ := ddStep_scan piecewise sz st (by omega) whole
      simp only [ddLoop, zero, ↓reduceIte, step]
      obtain ⟨src, dst, copied, scan⟩ := ih _
        ⟨ddAdvance st.src (ddStream st.src (min ddMaxBufsz sz)).length,
          st.dst.map (·.write (f (ddStream st.src (min ddMaxBufsz sz)) st.scan).1), buffer,
          st.copied + (ddStream st.src (min ddMaxBufsz sz)).length,
          (f (ddStream st.src (min ddMaxBufsz sz)) st.scan).2⟩
        (show sz - (ddStream st.src (min ddMaxBufsz sz)).length ≤ fuel by omega)
        (by simp only; omega)
      by_cases last : sz ≤ ddMaxBufsz
      · have all : min ddMaxBufsz sz = sz := by omega
        rw [all] at src dst copied scan whole ⊢
        have rest : ddStream (ddAdvance st.src (ddStream st.src sz).length)
            (sz - (ddStream st.src sz).length) = [] := by
          apply List.eq_nil_of_length_eq_zero
          rw [all] at parts
          omega
        simp only [rest, piecewise.empty] at src dst copied scan
        refine ⟨?_, ?_, by rw [copied]; omega, scan⟩
        · rw [src, ddAdvance_add, whole, Nat.sub_self, Nat.add_zero]
        · rw [dst]
          cases st.dst <;> simp [Fd.write]
      · have chunk : (ddStream st.src (min ddMaxBufsz sz)).length = ddMaxBufsz := by omega
        have joined := piecewise.append (ddStream st.src (min ddMaxBufsz sz))
          (ddStream (ddAdvance st.src (ddStream st.src (min ddMaxBufsz sz)).length)
            (sz - (ddStream st.src (min ddMaxBufsz sz)).length)) st.scan chunk
        rw [← split] at joined
        refine ⟨?_, ?_, by rw [copied]; dsimp only; omega, by rw [scan, joined]⟩
        · rw [src, ddAdvance_add]
          congr 1
          omega
        · rw [dst, joined]
          cases st.dst <;> simp [Fd.write_write]

/-- `dd64` with a scan callback, on a source that holds every byte asked for. -/
theorem dd64_scan {f : BufScan σ} (piecewise : Piecewise f) (junk : Nat → Byte) (src dst : Option Fd)
    (offtSrc offtDst sz : Nat) (private_data : σ) (opened : ¬ (src.isNone ∧ dst.isNone))
    (full : (ddStream (src.map (·.fileseek offtSrc)) sz).length = sz) :
    let bytes := ddStream (src.map (·.fileseek offtSrc)) sz
    let done := dd64 junk src dst offtSrc offtDst sz (some f) private_data
    done.src = ddAdvance (src.map (·.fileseek offtSrc)) sz ∧
      done.dst = dst.map (fun fd => (fd.fileseek offtDst).write (f bytes private_data).1) ∧
      done.scan = (f bytes private_data).2 := by
  obtain ⟨source, target, _, scan⟩ := ddLoop_scan piecewise sz sz
    (⟨src.map (·.fileseek offtSrc), dst.map (·.fileseek offtDst), junk, 0, private_data⟩ : DdState σ)
    (Nat.le_refl _) full
  simp only [dd64, opened, ↓reduceIte]
  refine ⟨source, ?_, scan⟩
  rw [target]
  cases dst <;> rfl

end Dd

end ImgEditor
