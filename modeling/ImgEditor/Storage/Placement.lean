import ImgEditor.Storage.File

namespace Storage

section Placed

variable (room : Nat → Nat)

/-- Pieces stored one behind the other; `room` is the space that a piece of some length takes. -/
def placed : Nat → List (List Byte) → List (Nat × List Byte)
  | _, [] => []
  | offset, piece :: rest => (offset, piece) :: placed (offset + room piece.length) rest

def placedEnd : Nat → List (List Byte) → Nat
  | offset, [] => offset
  | offset, piece :: rest => placedEnd (offset + room piece.length) rest

end Placed

def File.writePieces (f : File) (pieces : List (Nat × List Byte)) : File :=
  pieces.foldl (fun f piece => f.writeAt piece.1 piece.2) f

/-- The file reads as `bytes` at `pos`. -/
def File.Reads (f : File) (pos : Nat) (bytes : List Byte) : Prop := f.readAt pos bytes.length = bytes

theorem File.reads_nil (f : File) (pos : Nat) : f.Reads pos [] := by
  rw [Reads, readAt, List.length_nil, Nat.zero_min, slice_zero]

theorem File.reads_iff {f : File} {pos : Nat} {bytes : List Byte} (nonempty : bytes ≠ []) :
    f.Reads pos bytes ↔ f.Holds pos bytes := by
  have positive := List.length_pos_iff.mpr nonempty
  constructor
  · intro reads
    have length := f.readAt_length pos bytes.length
    rw [Reads] at reads
    rw [reads] at length
    have inside : pos + bytes.length ≤ f.size := by omega
    rw [f.readAt_full _ _ inside] at reads
    exact ⟨inside, reads⟩
  · exact fun holds => holds.readAt

theorem File.Reads.length_le {f : File} {pos : Nat} {bytes : List Byte} (reads : f.Reads pos bytes)
    (nonempty : bytes ≠ []) : pos + bytes.length ≤ f.size := ((reads_iff nonempty).mp reads).1

theorem File.Reads.slice {f : File} {pos : Nat} {bytes : List Byte} (reads : f.Reads pos bytes) :
    f.slice pos bytes.length = bytes := by
  by_cases nonempty : bytes = []
  · rw [nonempty, List.length_nil, slice_zero]
  · exact ((reads_iff nonempty).mp reads).2

theorem File.Reads.mono {f g : File} {pos : Nat} {bytes : List Byte} (reads : f.Reads pos bytes)
    (grows : f.size ≤ g.size) (same : ∀ i, pos ≤ i → i < pos + bytes.length → g.byte i = f.byte i) :
    g.Reads pos bytes := by
  by_cases nonempty : bytes = []
  · rw [nonempty]
    exact g.reads_nil pos
  · rw [reads_iff nonempty] at reads ⊢
    exact reads.mono grows same

theorem File.Reads.writeAt {f : File} {pos at_ : Nat} {bytes more : List Byte} (reads : f.Reads pos bytes)
    (apart : pos + bytes.length ≤ at_ ∨ at_ + more.length ≤ pos) : (f.writeAt at_ more).Reads pos bytes := by
  apply reads.mono (f.size_le_writeAt at_ more)
  intro i lower upper
  exact writeAt_byte_outside f at_ more i (by omega)

theorem File.reads_writeAt (f : File) (pos : Nat) (bytes : List Byte) : (f.writeAt pos bytes).Reads pos bytes := by
  by_cases nonempty : bytes = []
  · rw [nonempty]
    exact File.reads_nil _ pos
  · rw [reads_iff nonempty]
    exact f.writeAt_holds pos bytes nonempty

theorem File.Reads.append {f : File} {pos : Nat} {left right : List Byte} (reads : f.Reads pos (left ++ right)) :
    f.Reads pos left ∧ f.Reads (pos + left.length) right := by
  have parts := reads.slice
  rw [List.length_append, File.slice_add] at parts
  obtain ⟨first, second⟩ := List.append_inj parts (by simp)
  have inside : left ++ right ≠ [] → pos + (left.length + right.length) ≤ f.size := by
    intro nonempty
    rw [← List.length_append]
    exact reads.length_le nonempty
  constructor
  · by_cases empty : left = []
    · rw [empty]
      exact f.reads_nil pos
    · have bound := inside (List.append_ne_nil_of_left_ne_nil empty right)
      exact (File.reads_iff empty).mpr ⟨by omega, first⟩
  · by_cases empty : right = []
    · rw [empty]
      exact f.reads_nil _
    · have bound := inside (List.append_ne_nil_of_right_ne_nil left empty)
      exact (File.reads_iff empty).mpr ⟨by omega, second⟩

theorem ofBytes_reads (bytes : List Byte) : (File.ofBytes bytes).Reads 0 bytes := by
  rw [File.ofBytes_eq_writeAt]
  exact File.reads_writeAt _ _ _

section Write

variable {room : Nat → Nat} {f : File} {offset : Nat} {pieces : List (List Byte)}

theorem placedEnd_ge (room : Nat → Nat) (offset : Nat) (pieces : List (List Byte)) :
    offset ≤ placedEnd room offset pieces := by
  induction pieces generalizing offset with
  | nil => exact le_refl _
  | cons piece rest ih =>
    have tail := ih (offset + room piece.length)
    rw [placedEnd]
    omega

theorem placedEnd_le {most : Nat} (small : ∀ piece ∈ pieces, room piece.length ≤ most) :
    placedEnd room offset pieces ≤ offset + pieces.length * most := by
  induction pieces generalizing offset with
  | nil => simp [placedEnd]
  | cons piece rest ih =>
    have here := small piece List.mem_cons_self
    have tail := @ih (offset + room piece.length) fun other inside => small other (List.mem_cons_of_mem _ inside)
    rw [placedEnd, List.length_cons, Nat.succ_mul]
    omega

theorem placed_inside (fits : ∀ piece ∈ pieces, piece.length ≤ room piece.length) :
    ∀ piece ∈ placed room offset pieces,
      offset ≤ piece.1 ∧ piece.1 + piece.2.length ≤ placedEnd room offset pieces := by
  induction pieces generalizing offset with
  | nil => exact fun piece member => absurd member List.not_mem_nil
  | cons piece rest ih =>
    intro stored member
    have here := fits piece List.mem_cons_self
    have reach := placedEnd_ge room (offset + room piece.length) rest
    rw [placedEnd]
    rcases List.mem_cons.mp member with rfl | later
    · simp only
      omega
    · have tail := @ih (offset + room piece.length)
        (fun other inside => fits other (List.mem_cons_of_mem _ inside)) stored later
      omega

theorem size_le_writePieces (f : File) (pieces : List (Nat × List Byte)) : f.size ≤ (f.writePieces pieces).size := by
  induction pieces generalizing f with
  | nil => exact le_refl _
  | cons piece rest ih => exact (f.size_le_writeAt piece.1 piece.2).trans (ih _)

theorem writePieces_byte_outside {pieces : List (Nat × List Byte)} {i : Nat}
    (outside : ∀ piece ∈ pieces, i < piece.1 ∨ piece.1 + piece.2.length ≤ i) :
    (f.writePieces pieces).byte i = f.byte i := by
  induction pieces generalizing f with
  | nil => rfl
  | cons piece rest ih =>
    have later := @ih (f.writeAt piece.1 piece.2) fun other member => outside other (List.mem_cons_of_mem _ member)
    rw [File.writePieces, List.foldl_cons]
    rw [File.writePieces] at later
    rw [later]
    exact File.writeAt_byte_outside f piece.1 piece.2 i (outside piece List.mem_cons_self)

/-- Every piece can be read back after all of them are written. -/
theorem writePieces_reads (fits : ∀ piece ∈ pieces, piece.length ≤ room piece.length) :
    ∀ piece ∈ placed room offset pieces,
      (f.writePieces (placed room offset pieces)).Reads piece.1 piece.2 := by
  induction pieces generalizing f offset with
  | nil => exact fun piece member => absurd member List.not_mem_nil
  | cons piece rest ih =>
    intro stored member
    have here := fits piece List.mem_cons_self
    have later : ∀ other ∈ rest, other.length ≤ room other.length :=
      fun other inside => fits other (List.mem_cons_of_mem _ inside)
    rw [placed, File.writePieces, List.foldl_cons]
    rcases List.mem_cons.mp member with rfl | tail
    · apply (f.reads_writeAt offset piece).mono (size_le_writePieces _ _)
      intro i _ upper
      apply writePieces_byte_outside
      intro other inside
      have behind := placed_inside later other inside
      omega
    · exact ih later stored tail

end Write

end Storage
