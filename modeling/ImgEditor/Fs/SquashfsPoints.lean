import ImgEditor.Fs.SquashfsMetablocks

namespace ImgEditor

open Storage

structure SquashfsPoint where
  buf : List Byte
  globalOffset : Nat
deriving DecidableEq

/-- `squashfs_alloc_metablocks` with a limit of one block. -/
def squashfsAllocMetablock (fd : Fd) (offset : Nat) : Option (List Byte × Fd) :=
  match endState (squashfsMetablocksNext 0 1) 3 (squashfsMetablocksStart fd offset) with
  | some (.done fd _ buf) => some (buf, fd)
  | _ => none

def squashfsReadPoints : Nat → Fd → Option (List SquashfsPoint)
  | 0, _ => some []
  | count + 1, fd => do
    let bytes ← fileread fd 8
    let globalOffset := leNumber bytes
    let (buf, fd) ← squashfsAllocMetablock { fd with pos := fd.pos + 8 } globalOffset
    let rest ← squashfsReadPoints count fd
    some (⟨buf, globalOffset⟩ :: rest)

def squashfsReadPpoint (fd : Fd) (ppoffset count : Nat) : Option (List SquashfsPoint) :=
  squashfsReadPoints count (fd.fileseek ppoffset)

/-! ## The table -/

namespace Metadata

variable (f : File)

def pointer (place : Nat) : Option Nat := if place + 8 ≤ f.size then some (leNumber (f.slice place 8)) else none

def Points (start : Nat) (p : SquashfsPoint) : Prop :=
  ∃ size, blockSize f (start + p.globalOffset) = some size ∧ start + p.globalOffset + 2 + size ≤ f.size ∧
    p.buf = f.slice (start + p.globalOffset + 2) size

structure Table (start ppoffset : Nat) (points : List SquashfsPoint) : Prop where
  pointers : ∀ i p, points[i]? = some p → pointer f (start + ppoffset + 8 * i) = some p.globalOffset
  blocks : ∀ p ∈ points, Points f start p

def behind (start : Nat) (p : SquashfsPoint) : Nat := start + p.globalOffset + 2 + p.buf.length

end Metadata

def PpointRight (fd : Fd) (ppoffset count : Nat) : Prop :=
  ∀ points, points.length = count → Metadata.Table fd.file fd.start ppoffset points →
    squashfsReadPpoint fd ppoffset count = some points

/-- Behind the block of each point stands the next pointer once more. -/
def PpointFits (fd : Fd) (ppoffset count : Nat) : Prop :=
  ∀ points, points.length = count → Metadata.Table fd.file fd.start ppoffset points →
    ∀ i p q, points[i]? = some p → points[i + 1]? = some q →
      Metadata.pointer fd.file (Metadata.behind fd.start p) = some q.globalOffset

section Points

variable {fd : Fd}

theorem squashfsAllocMetablock_eq (fd : Fd) (offset : Nat) : squashfsAllocMetablock fd offset =
    (squashfsReadMetablock fd offset SQUASHFS_METADATA_SIZE).map fun block => (block.payload, block.fd) := by
  have below : ¬ MetaLimit 0 1 offset 0 := by
    unfold MetaLimit
    omega
  have first : squashfsMetablocksNext 0 1 (squashfsMetablocksStart fd offset) =
      (squashfsReadMetablock fd offset SQUASHFS_METADATA_SIZE).elim (some .null) fun block =>
        some (.loop block.fd block.nextOffset (SQUASHFS_METADATA_SIZE + SQUASHFS_METADATA_SIZE) (0 + 1)
          (0 + block.payload.length) ([] ++ block.payload)) := by
    rw [squashfsMetablocksStart, squashfsMetablocksNext, if_neg below, show metaChunk 0 offset = SQUASHFS_METADATA_SIZE from rfl]
    cases squashfsReadMetablock fd offset SQUASHFS_METADATA_SIZE with
    | none => rfl
    | some block => rfl
  rw [squashfsAllocMetablock, endState, first]
  cases read : squashfsReadMetablock fd offset SQUASHFS_METADATA_SIZE with
  | none => rfl
  | some block =>
    simp only [endState]
    rfl

theorem fileread_pointer (fd : Fd) :
    (fileread fd 8).map leNumber = Metadata.pointer fd.file fd.pos := by
  unfold Metadata.pointer
  split
  · rename_i inside
    rw [fileread_inside inside]
    rfl
  · rename_i short
    rw [fileread_outside (by decide) (Nat.lt_of_not_le short)]
    rfl

/-- The block of a sound point is read from any position, and leaves the position behind it. -/
theorem squashfsAllocMetablock_point (size : fd.file.size < 2^63) {p : SquashfsPoint}
    (points : Metadata.Points fd.file fd.start p) :
    squashfsAllocMetablock fd p.globalOffset = some (p.buf, { fd with pos := Metadata.behind fd.start p }) := by
  obtain ⟨width, header, inside, payload⟩ := points
  obtain ⟨_, _, most⟩ := Metadata.blockSize_bounds header
  have sought : fd.start + p.globalOffset < 2^63 := by omega
  have length : p.buf.length = width := by rw [payload, File.slice_length]
  rw [squashfsAllocMetablock_eq, squashfsReadMetablock_eq sought, header]
  dsimp only
  rw [Nat.min_eq_left most, if_pos inside, Metadata.behind, length, ← payload]
  rfl

/-- From a position on, each point stands behind the block of the one before. -/
def Follows (f : File) (start : Nat) : Nat → List SquashfsPoint → Prop
  | _, [] => True
  | place, p :: rest => Metadata.pointer f place = some p.globalOffset ∧ Follows f start (Metadata.behind start p) rest

theorem squashfsReadPoints_iff (size : fd.file.size < 2^63) {points : List SquashfsPoint}
    (sound : ∀ p ∈ points, Metadata.Points fd.file fd.start p) :
    squashfsReadPoints points.length fd = some points ↔ Follows fd.file fd.start fd.pos points := by
  induction points generalizing fd with
  | nil => exact iff_of_true rfl trivial
  | cons p rest ih =>
    have value := fileread_pointer fd
    rw [List.length_cons, squashfsReadPoints, Follows, ← value]
    cases read : fileread fd 8 with
    | none => exact iff_of_false nofun fun both => nomatch both.1
    | some bytes =>
      have later := @ih { fd with pos := Metadata.behind fd.start p } size
        fun q member => sound q (List.mem_cons_of_mem p member)
      have block := @squashfsAllocMetablock_point { fd with pos := fd.pos + 8 } size p (sound p List.mem_cons_self)
      rw [Option.map_some, Option.some.injEq, ← later]
      constructor
      · intro made
        obtain ⟨_, same, made⟩ := Option.bind_eq_some_iff.mp made
        obtain rfl := Option.some.inj same
        obtain ⟨⟨buf, behind⟩, own, made⟩ := Option.bind_eq_some_iff.mp made
        obtain ⟨others, following, made⟩ := Option.bind_eq_some_iff.mp made
        obtain ⟨head, tail⟩ := List.cons.inj (Option.some.inj made)
        have same : leNumber bytes = p.globalOffset := congrArg SquashfsPoint.globalOffset head
        rw [same, block] at own
        rw [← (Prod.mk.inj (Option.some.inj own)).2, tail] at following
        exact ⟨same, following⟩
      · rintro ⟨same, following⟩
        show (squashfsAllocMetablock { fd with pos := fd.pos + 8 } (leNumber bytes)).bind _ = _
        rw [same, block, Option.bind_some]
        show (squashfsReadPoints rest.length _).bind _ = _
        rw [following]
        rfl

theorem follows_iff {f : File} {start place : Nat} {points : List SquashfsPoint} : Follows f start place points ↔
    (∀ p ∈ points.head?, Metadata.pointer f place = some p.globalOffset) ∧
      ∀ i p q, points[i]? = some p → points[i + 1]? = some q →
        Metadata.pointer f (Metadata.behind start p) = some q.globalOffset := by
  induction points generalizing place with
  | nil => exact iff_of_true trivial ⟨nofun, nofun⟩
  | cons p rest ih =>
    rw [Follows, ih]
    constructor
    · rintro ⟨own, first, others⟩
      refine ⟨?_, ?_⟩
      · intro q head
        rw [← Option.some.inj head]
        exact own
      · intro i q r here next
        cases i with
        | zero =>
          rw [← Option.some.inj here]
          exact first r (by rw [List.head?_eq_getElem?]; exact next)
        | succ i => exact others i q r here next
    · rintro ⟨own, steps⟩
      refine ⟨own p rfl, ?_, fun i q r here next => steps (i + 1) q r here next⟩
      intro q head
      exact steps 0 p q rfl (by rw [List.getElem?_cons_succ, ← List.head?_eq_getElem?]; exact head)

end Points

/-- The descriptor is not sought back to the table, so each further pointer is read behind the block before. -/
theorem squashfsReadPpoint_right_iff (fd : Fd) (size : fd.file.size < 2^63) (ppoffset count : Nat) :
    PpointRight fd ppoffset count ↔ PpointFits fd ppoffset count := by
  have one : ∀ points : List SquashfsPoint, points.length = count → Metadata.Table fd.file fd.start ppoffset points →
      (squashfsReadPpoint fd ppoffset count = some points ↔ ∀ i p q, points[i]? = some p → points[i + 1]? = some q →
        Metadata.pointer fd.file (Metadata.behind fd.start p) = some q.globalOffset) := by
    intro points length table
    cases points with
    | nil =>
      obtain rfl : 0 = count := length
      exact iff_of_true rfl nofun
    | cons p rest =>
      have first := table.pointers 0 p rfl
      rw [Nat.mul_zero, Nat.add_zero] at first
      have sought : fd.fileseek ppoffset = { fd with pos := fd.start + ppoffset } := by
        apply fd.fileseek_eq
        unfold Metadata.pointer at first
        split at first
        · omega
        · cases first
      have read := @squashfsReadPoints_iff { fd with pos := fd.start + ppoffset } size _ table.blocks
      rw [squashfsReadPpoint, sought, ← length, read, follows_iff]
      refine and_iff_right ?_
      intro q head
      rw [← Option.some.inj head]
      exact first
  exact forall₃_congr one

def twoPointsImage : File :=
  File.ofBytes [16, 0, 0, 0, 0, 0, 0, 0, 19, 0, 0, 0, 0, 0, 0, 0, 0x01, 0x80, 0xaa, 0x01, 0x80, 0xbb]

theorem squashfsReadPpoint_right_iff_first : PpointRight ⟨twoPointsImage, 0, 0⟩ 0 1 := by
  refine (squashfsReadPpoint_right_iff ⟨twoPointsImage, 0, 0⟩ (by decide) 0 1).mpr ?_
  intro points length _ i p q _ next
  have short := List.getElem?_eq_none (by omega : points.length ≤ i + 1)
  rw [next] at short
  cases short

theorem squashfsReadPpoint_two : ¬ PpointRight ⟨twoPointsImage, 0, 0⟩ 0 2 := by
  intro right
  have table : Metadata.Table twoPointsImage 0 0 [⟨[0xaa], 16⟩, ⟨[0xbb], 19⟩] := by
    constructor
    case pointers =>
      intro i p here
      match i with
      | 0 =>
        rw [← Option.some.inj here]
        decide
      | 1 =>
        rw [← Option.some.inj here]
        decide
      | i + 2 => cases here
    case blocks =>
      intro p member
      have either : p = ⟨[0xaa], 16⟩ ∨ p = ⟨[0xbb], 19⟩ := by simpa using member
      rcases either with rfl | rfl
      · exact ⟨1, by decide, by decide, by decide⟩
      · exact ⟨1, by decide, by decide, by decide⟩
  have stored := right _ rfl table
  exact absurd stored (by decide +kernel)

end ImgEditor
