import ImgEditor.Fs.Ext2
import ImgEditor.Storage.Walk

namespace ImgEditor

open Storage

/-! Fields of a `struct ext2_dirent`. -/

def direntInode (m : Memory) (dir : Nat) : Nat := memField m dir 4
def direntlen (m : Memory) (dir : Nat) : Nat := memField m (dir + 4) 2
def direntNamelen (m : Memory) (dir : Nat) : Nat := (m (dir + 6)).toNat
def direntFiletype (m : Memory) (dir : Nat) : Nat := (m (dir + 7)).toNat
def sizeofExt2Dirent : Nat := 8

def EXT4_FT_REG_FILE : Nat := 1
def EXT4_FT_DIR : Nat := 2
def EXT4_FT_CHRDEV : Nat := 3
def EXT4_FT_SOCK : Nat := 6
def EXT4_FT_SYMLINK : Nat := 7

/-- Behind one pass of the loop of `ext2_do_dirent`; places are offsets in the block. -/
def doDirentNext (m : Memory) (blockSize offset : Nat) : Option Nat :=
  if blockSize ≤ offset then none
  else if blockSize < offset + direntlen m offset then none
  else if direntInode m offset = 0 then some (offset + direntlen m offset)
  else if direntlen m offset ≤ sizeofExt2Dirent then none
  else some (offset + direntlen m offset)

/-- `dirent_list_foreach` with the body of `print_dirent` or of `unpack_dirent`, which both begin with the same checks;
`goesOn` tells where the rest of the body does not leave the loop. -/
def direntListNext (m : Memory) (direntSize : Nat) (goesOn : Nat → Bool) (offset : Nat) : Option Nat :=
  if direntSize ≤ offset then none
  else if direntSize < offset + direntlen m offset then none
  else if direntlen m offset ≤ sizeofExt2Dirent then none
  else if direntInode m offset = 0 then some (offset + direntlen m offset)
  else if goesOn offset then some (offset + direntlen m offset)
  else none

/-! ## The bytes that are read -/

def FieldRead (p width i : Nat) : Prop := p ≤ i ∧ i < p + width

/-- Byte `i` is read for `%.*s`, or without a limit for `%s`: no `NUL` is in front of it. -/
def TextRead (m : Memory) (p : Nat) (limit : Option Nat) (i : Nat) : Prop :=
  p ≤ i ∧ (∀ n ∈ limit, i < p + n) ∧ ∀ j, p ≤ j → j < i → m j ≠ 0#8

def NameRead (m : Memory) (offset i : Nat) : Prop := TextRead m (offset + sizeofExt2Dirent) (some (direntNamelen m offset)) i

def DoDirentReads (m : Memory) (blockSize offset i : Nat) : Prop :=
  offset < blockSize ∧
    (FieldRead (offset + 4) 2 i ∨ offset + direntlen m offset ≤ blockSize ∧
      (FieldRead offset 4 i ∨ direntInode m offset ≠ 0 ∧ sizeofExt2Dirent < direntlen m offset ∧
        (FieldRead (offset + 6) 2 i ∨ NameRead m offset i)))

/-- For an entry in use, the comparisons with `.` and `..` read no more of the name than is printed. -/
def PrintDirentReads (m : Memory) (offset i : Nat) : Prop :=
  FieldRead (offset + 6) 2 i ∨ direntFiletype m offset ≤ EXT4_FT_SYMLINK ∧ NameRead m offset i

/-- The warning about a device, a FIFO or a socket prints the name up to a `NUL`. -/
def UnpackDirentReads (m : Memory) (offset i : Nat) : Prop :=
  FieldRead (offset + 6) 2 i ∨ NameRead m offset i ∨
    (EXT4_FT_CHRDEV ≤ direntFiletype m offset ∧ direntFiletype m offset ≤ EXT4_FT_SOCK) ∧
      TextRead m (offset + sizeofExt2Dirent) none i

def DirentListReads (m : Memory) (direntSize : Nat) (body : Nat → Nat → Prop) (offset i : Nat) : Prop :=
  offset < direntSize ∧
    (FieldRead (offset + 4) 2 i ∨ offset + direntlen m offset ≤ direntSize ∧ sizeofExt2Dirent < direntlen m offset ∧
      (FieldRead offset 4 i ∨ direntInode m offset ≠ 0 ∧ body offset i))

/-- A loop over the entries of a buffer ends, goes forward, and reads bytes of the buffer. -/
structure DirentSafe (next : Nat → Option Nat) (reads : Nat → Nat → Prop) (size : Nat) : Prop where
  ends : Ends next 0
  forward : ∀ offset behind, Visits next 0 offset → next offset = some behind → offset < behind
  inside : ∀ offset i, Visits next 0 offset → reads offset i → i < size

def TextFits (m : Memory) (size p : Nat) (limit : Option Nat) : Prop :=
  (∃ n ∈ limit, p + n ≤ size) ∨ ∃ j, p ≤ j ∧ j < size ∧ m j = 0#8

def NameFits (m : Memory) (size offset : Nat) : Prop :=
  TextFits m size (offset + sizeofExt2Dirent) (some (direntNamelen m offset))

/-- What has to hold at an offset below the size: the length is in the buffer, and for an entry that ends in the buffer
an unused one has a length, and the name of another one fits. -/
def DoDirentFits (m : Memory) (blockSize offset : Nat) : Prop :=
  offset + 6 ≤ blockSize ∧ (offset + direntlen m offset ≤ blockSize →
    (direntInode m offset = 0 → direntlen m offset ≠ 0) ∧
      (direntInode m offset ≠ 0 → sizeofExt2Dirent < direntlen m offset → NameFits m blockSize offset))

def DirentListFits (m : Memory) (direntSize : Nat) (body : Nat → Prop) (offset : Nat) : Prop :=
  offset + 6 ≤ direntSize ∧ (offset + direntlen m offset ≤ direntSize → sizeofExt2Dirent < direntlen m offset →
    direntInode m offset ≠ 0 → body offset)

def PrintDirentFits (m : Memory) (direntSize offset : Nat) : Prop :=
  direntFiletype m offset ≤ EXT4_FT_SYMLINK → NameFits m direntSize offset

def UnpackDirentFits (m : Memory) (direntSize offset : Nat) : Prop :=
  NameFits m direntSize offset ∧
    (EXT4_FT_CHRDEV ≤ direntFiletype m offset ∧ direntFiletype m offset ≤ EXT4_FT_SOCK →
      TextFits m direntSize (offset + sizeofExt2Dirent) none)

section Loops

variable {m : Memory} {size : Nat}

theorem fieldRead_inside_iff {p width : Nat} (positive : 0 < width) :
    (∀ i, FieldRead p width i → i < size) ↔ p + width ≤ size := by
  constructor
  · intro inside
    have last := inside (p + width - 1) ⟨by omega, by omega⟩
    omega
  · rintro room i ⟨_, less⟩
    omega

theorem textRead_inside_iff {p : Nat} {limit : Option Nat} (start : p ≤ size) :
    (∀ i, TextRead m p limit i → i < size) ↔ TextFits m size p limit := by
  constructor
  · intro inside
    by_contra far
    have long : ∀ n ∈ limit, size < p + n := fun n is => Nat.not_le.mp fun room => far (.inl ⟨n, is, room⟩)
    have letters : ∀ j, p ≤ j → j < size → m j ≠ 0#8 := fun j least less null => far (.inr ⟨j, least, less, null⟩)
    exact absurd (inside size ⟨start, long, letters⟩) (Nat.lt_irrefl size)
  · rintro fits i ⟨least, below, letters⟩
    rcases fits with ⟨n, is, room⟩ | ⟨j, begun, less, null⟩
    · exact Nat.lt_of_lt_of_le (below n is) room
    · by_contra past
      exact letters j begun (by omega) null

theorem nameRead_inside_iff {offset : Nat} (room : offset + direntlen m offset ≤ size)
    (long : sizeofExt2Dirent < direntlen m offset) : (∀ i, NameRead m offset i → i < size) ↔ NameFits m size offset :=
  textRead_inside_iff (by omega)

/-! ## `ext2_do_dirent` -/

theorem doDirentNext_some {offset behind : Nat} (more : doDirentNext m size offset = some behind) :
    offset < size ∧ behind = offset + direntlen m offset ∧ behind ≤ size ∧
      (direntInode m offset ≠ 0 → sizeofExt2Dirent < direntlen m offset) := by
  unfold doDirentNext at more
  split at more
  · cases more
  split at more
  · cases more
  split at more
  · obtain rfl := Option.some.inj more
    exact ⟨by omega, rfl, by omega, fun used => absurd ‹_› used⟩
  split at more
  · cases more
  · obtain rfl := Option.some.inj more
    exact ⟨by omega, rfl, by omega, fun _ => by omega⟩

theorem doDirentReads_inside_iff {offset : Nat} (less : offset < size) :
    (∀ i, DoDirentReads m size offset i → i < size) ↔ offset + 6 ≤ size ∧
      (offset + direntlen m offset ≤ size → direntInode m offset ≠ 0 → sizeofExt2Dirent < direntlen m offset →
        NameFits m size offset) := by
  constructor
  · intro inside
    have length : offset + 4 + 2 ≤ size :=
      (fieldRead_inside_iff (by decide)).mp fun i read => inside i ⟨less, .inl read⟩
    refine ⟨length, fun room used long => ?_⟩
    exact (nameRead_inside_iff room long).mp fun i read => inside i ⟨less, .inr ⟨room, .inr ⟨used, long, .inr read⟩⟩⟩
  · rintro ⟨length, name⟩ i ⟨_, read | ⟨room, read | ⟨used, long, read | read⟩⟩⟩
    · exact (fieldRead_inside_iff (by decide)).mpr (show offset + 4 + 2 ≤ size from length) i read
    · exact (fieldRead_inside_iff (by decide)).mpr (Nat.le_trans (by omega) length) i read
    · unfold sizeofExt2Dirent at long
      exact (fieldRead_inside_iff (by decide)).mpr (show offset + 6 + 2 ≤ size by omega) i read
    · exact (nameRead_inside_iff room long).mpr (name room used long) i read

theorem doDirent_safe_iff (m : Memory) (size : Nat) :
    DirentSafe (doDirentNext m size) (DoDirentReads m size) size ↔
      ∀ offset, Visits (doDirentNext m size) 0 offset → offset < size → DoDirentFits m size offset := by
  constructor
  · intro safe offset visited less
    rcases (doDirentReads_inside_iff less).mp fun i => safe.inside offset i visited with ⟨length, name⟩
    refine ⟨length, fun room => ⟨fun unused zero => ?_, name room⟩⟩
    have stays : doDirentNext m size offset = some offset := by
      rw [doDirentNext, if_neg (Nat.not_le.mpr less), if_neg (Nat.not_lt.mpr room), if_pos unused, zero]
      rfl
    exact absurd (safe.forward offset offset visited stays) (Nat.lt_irrefl offset)
  · intro fits
    have forward : ∀ offset behind, Visits (doDirentNext m size) 0 offset → doDirentNext m size offset = some behind →
        offset < behind ∧ offset < size := by
      intro offset behind visited more
      rcases doDirentNext_some more with ⟨less, rfl, room, long⟩
      refine ⟨?_, less⟩
      by_cases unused : direntInode m offset = 0
      · have positive := ((fits offset visited less).2 room).1 unused
        omega
      · have positive := long unused
        omega
    refine ⟨?_, fun offset behind visited more => (forward offset behind visited more).1, ?_⟩
    · apply Ends.of_measure (I := Visits (doDirentNext m size) 0) (fun offset => size - offset) .start
      intro offset behind visited more
      have later := forward offset behind visited more
      exact ⟨visited.step more, by omega⟩
    · intro offset i visited read
      have there := fits offset visited read.1
      exact (doDirentReads_inside_iff read.1).mpr ⟨there.1, fun room => (there.2 room).2⟩ i read

/-! ## `print_dirent` and `unpack_dirent` -/

theorem direntListNext_some {goesOn : Nat → Bool} {offset behind : Nat}
    (more : direntListNext m size goesOn offset = some behind) : offset < size ∧ offset < behind := by
  unfold direntListNext at more
  split at more
  · cases more
  split at more
  · cases more
  split at more
  · cases more
  split at more
  · obtain rfl := Option.some.inj more
    exact ⟨by omega, by omega⟩
  split at more
  · obtain rfl := Option.some.inj more
    exact ⟨by omega, by omega⟩
  · cases more

theorem direntList_ends (m : Memory) (size : Nat) (goesOn : Nat → Bool) : Ends (direntListNext m size goesOn) 0 := by
  apply Ends.of_measure (I := fun _ => True) (fun offset => size - offset) trivial
  intro offset behind _ more
  have later := direntListNext_some more
  exact ⟨trivial, by omega⟩

/-- `fits` says where what the body reads is in the buffer. -/
theorem direntList_safe_iff (goesOn : Nat → Bool) {body : Nat → Nat → Prop} {fits : Nat → Prop}
    (same : ∀ offset, offset + direntlen m offset ≤ size → sizeofExt2Dirent < direntlen m offset →
      ((∀ i, body offset i → i < size) ↔ fits offset)) :
    DirentSafe (direntListNext m size goesOn) (DirentListReads m size body) size ↔
      ∀ offset, Visits (direntListNext m size goesOn) 0 offset → offset < size → DirentListFits m size fits offset := by
  constructor
  · intro safe offset visited less
    have inside := fun i => safe.inside offset i visited
    have length : offset + 4 + 2 ≤ size :=
      (fieldRead_inside_iff (by decide)).mp fun i read => inside i ⟨less, .inl read⟩
    refine ⟨length, fun room long used => ?_⟩
    exact (same offset room long).mp fun i read => inside i ⟨less, .inr ⟨room, long, .inr ⟨used, read⟩⟩⟩
  · intro fit
    refine ⟨direntList_ends m size goesOn, fun offset behind _ more => (direntListNext_some more).2, ?_⟩
    rintro offset i visited ⟨less, read | ⟨room, long, read | ⟨used, read⟩⟩⟩
    · exact (fieldRead_inside_iff (by decide)).mpr (show offset + 4 + 2 ≤ size from (fit offset visited less).1) i read
    · exact (fieldRead_inside_iff (by decide)).mpr (Nat.le_trans (by omega) (fit offset visited less).1) i read
    · exact (same offset room long).mpr ((fit offset visited less).2 room long used) i read

theorem printDirentReads_inside_iff {offset : Nat} (room : offset + direntlen m offset ≤ size)
    (long : sizeofExt2Dirent < direntlen m offset) :
    (∀ i, PrintDirentReads m offset i → i < size) ↔ PrintDirentFits m size offset := by
  constructor
  · intro inside known
    exact (nameRead_inside_iff room long).mp fun i read => inside i (.inr ⟨known, read⟩)
  · rintro fits i (read | ⟨known, read⟩)
    · unfold sizeofExt2Dirent at long
      exact (fieldRead_inside_iff (by decide)).mpr (show offset + 6 + 2 ≤ size by omega) i read
    · exact (nameRead_inside_iff room long).mpr (fits known) i read

theorem unpackDirentReads_inside_iff {offset : Nat} (room : offset + direntlen m offset ≤ size)
    (long : sizeofExt2Dirent < direntlen m offset) :
    (∀ i, UnpackDirentReads m offset i → i < size) ↔ UnpackDirentFits m size offset := by
  have start : offset + sizeofExt2Dirent ≤ size := by omega
  constructor
  · intro inside
    refine ⟨(nameRead_inside_iff room long).mp fun i read => inside i (.inr (.inl read)), fun special => ?_⟩
    exact (textRead_inside_iff start).mp fun i read => inside i (.inr (.inr ⟨special, read⟩))
  · rintro ⟨name, text⟩ i (read | read | ⟨special, read⟩)
    · unfold sizeofExt2Dirent at start
      exact (fieldRead_inside_iff (by decide)).mpr (show offset + 6 + 2 ≤ size from start) i read
    · exact (nameRead_inside_iff room long).mpr name i read
    · exact (textRead_inside_iff start).mpr (text special) i read

end Loops

/-- The entry loops are safe exactly if the entries that they come to fit. -/
theorem direntLoops_safe_iff (m : Memory) (size : Nat) (goesOn : Nat → Bool) :
    (DirentSafe (doDirentNext m size) (DoDirentReads m size) size ↔
      ∀ offset, Visits (doDirentNext m size) 0 offset → offset < size → DoDirentFits m size offset) ∧
    (DirentSafe (direntListNext m size goesOn) (DirentListReads m size (PrintDirentReads m)) size ↔
      ∀ offset, Visits (direntListNext m size goesOn) 0 offset → offset < size →
        DirentListFits m size (PrintDirentFits m size) offset) ∧
    (DirentSafe (direntListNext m size goesOn) (DirentListReads m size (UnpackDirentReads m)) size ↔
      ∀ offset, Visits (direntListNext m size goesOn) 0 offset → offset < size →
        DirentListFits m size (UnpackDirentFits m size) offset) :=
  ⟨doDirent_safe_iff m size, direntList_safe_iff goesOn fun _ => printDirentReads_inside_iff,
    direntList_safe_iff goesOn fun _ => unpackDirentReads_inside_iff⟩

/-- An unused entry without a length. -/
theorem doDirent_unsafe : ¬ DirentSafe (doDirentNext (fun _ => 0#8) 1024) (DoDirentReads (fun _ => 0#8) 1024) 1024 := by
  intro safe
  exact absurd (safe.forward 0 0 .start (by decide)) (by decide)

end ImgEditor
