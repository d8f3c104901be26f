import ImgEditor.Storage.Chunks

namespace Storage

/-- A stretch of bytes at a place of one file that is copied to a position of another one. -/
structure Copy where
  place : Nat
  pos : Nat
  len : Nat

namespace Copy

def stop (c : Copy) : Nat := c.pos + c.len

/-- The copies with lengths that are cut by what is left of a size. -/
def clip : List Copy → Nat → List Copy
  | [], _ => []
  | c :: rest, left => { c with len := min c.len left } :: clip rest (left - min c.len left)

/-- The copies that begin below a size are in order; behind the first other one there is none below the size. -/
def InOrder (size : Nat) : Nat → List Copy → Prop
  | _, [] => True
  | start, c :: rest =>
    start ≤ c.pos ∧ 0 < c.len ∧ (c.pos < size → InOrder size c.stop rest) ∧ (size ≤ c.pos → ∀ d ∈ rest, size ≤ d.pos)

def Covers (copies : List Copy) (o : Nat) : Prop := ∃ c ∈ copies, c.pos ≤ o ∧ o < c.stop

theorem covers_cons {c : Copy} {rest : List Copy} {o : Nat} :
    Covers (c :: rest) o ↔ c.pos ≤ o ∧ o < c.stop ∨ Covers rest o := by
  unfold Covers
  simp only [List.mem_cons, exists_eq_or_imp]

theorem clip_zero (copies : List Copy) : ∀ c ∈ clip copies 0, c.len = 0 := by
  induction copies with
  | nil => exact nofun
  | cons c rest ih =>
    rw [clip, Nat.min_zero, Nat.sub_zero]
    exact List.forall_mem_cons.mpr ⟨rfl, ih⟩

theorem clip_mem (copies : List Copy) (left : Nat) :
    ∀ d ∈ clip copies left, ∃ c ∈ copies, d.place = c.place ∧ d.pos = c.pos ∧ d.len ≤ c.len := by
  induction copies generalizing left with
  | nil => exact nofun
  | cons c rest ih =>
    intro d member
    rcases List.mem_cons.mp member with rfl | later
    · exact ⟨c, List.mem_cons_self, rfl, rfl, Nat.min_le_left _ _⟩
    · rcases ih _ d later with ⟨e, among, same⟩
      exact ⟨e, List.mem_cons_of_mem _ among, same⟩

variable {size start left : Nat} {copies : List Copy}

theorem InOrder.behind (ordered : InOrder size start copies) {d : Copy} (member : d ∈ copies) (below : d.pos < size) :
    start ≤ d.pos := by
  induction copies generalizing start with
  | nil => cases member
  | cons c rest ih =>
    rcases ordered with ⟨first, some, inside, beyond⟩
    rcases List.mem_cons.mp member with rfl | later
    · exact first
    · rcases Nat.lt_or_ge c.pos size with less | more
      · have next := ih (inside less) later
        unfold stop at next
        omega
      · have far := beyond more d later
        omega

/-! ## Which copies stay below the size -/

theorem clip_within (ordered : InOrder size start copies) (enough : size ≤ start + left)
    (within : ∀ c ∈ copies, c.stop ≤ size) : clip copies left = copies := by
  induction copies generalizing start left with
  | nil => rfl
  | cons c rest ih =>
    rcases ordered with ⟨first, some, inside, -⟩
    have bound := within c List.mem_cons_self
    unfold stop at bound inside
    have whole : min c.len left = c.len := by omega
    rw [clip, whole, ih (inside (by omega)) (by omega) fun d later => within d (List.mem_cons_of_mem _ later)]

/-- Without a gap the first copy begins where the others end. -/
theorem InOrder.first_covered {c : Copy} (ordered : InOrder size start (c :: copies)) (below : start < size)
    (covered : Covers (c :: copies) start) : c.pos = start := by
  rcases ordered with ⟨first, some, inside, beyond⟩
  rcases covers_cons.mp covered with ⟨before, -⟩ | ⟨d, later, before, -⟩
  · omega
  · by_cases less : c.pos < size
    · have next := (inside less).behind later (by omega)
      unfold stop at next
      omega
    · have far := beyond (by omega) d later
      omega

theorem InOrder.rest_covered {c : Copy} (ordered : InOrder size start (c :: copies))
    (covered : ∀ o, start ≤ o → o < size → Covers (c :: copies) o) :
    ∀ o, c.stop ≤ o → o < size → Covers copies o := by
  intro o after below
  have first := ordered.1
  rcases covers_cons.mp (covered o (by unfold stop at after; omega) below) with ⟨-, before⟩ | later
  · omega
  · exact later

/-- Copies without a gap below the size end at it, and still have none. -/
theorem clip_covered (ordered : InOrder size start copies) (covered : ∀ o, start ≤ o → o < size → Covers copies o) :
    (∀ c ∈ clip copies (size - start), c.len = 0 ∨ c.stop ≤ size) ∧
      ∀ o, start ≤ o → o < size → Covers (clip copies (size - start)) o := by
  induction copies generalizing start with
  | nil => exact ⟨nofun, covered⟩
  | cons c rest ih =>
    by_cases done : size ≤ start
    · rw [Nat.sub_eq_zero_of_le done]
      exact ⟨fun d member => .inl (clip_zero _ d member), fun o after below => by omega⟩
    · -- the position `start` is covered by the first copy
      have here := ordered.first_covered (by omega) (covered start (Nat.le_refl _) (by omega))
      have left : size - start - min c.len (size - start) = size - c.stop := by
        unfold stop
        omega
      rcases ih (ordered.2.2.1 (by omega)) (ordered.rest_covered covered) with ⟨ends, still⟩
      rw [clip, left]
      constructor
      · intro d member
        rcases List.mem_cons.mp member with rfl | later
        · dsimp only [stop]
          omega
        · exact ends d later
      · intro o after below
        rw [covers_cons]
        by_cases first : o < c.stop
        · refine .inl ⟨by dsimp only; omega, ?_⟩
          unfold stop at first ⊢
          dsimp only
          omega
        · exact .inr (still o (by omega) below)

def Overflows (size : Nat) (copies clipped : List Copy) : Prop :=
  ∃ before d after, clipped = before ++ d :: after ∧ (∀ b ∈ before, b ∈ copies ∧ b.stop ≤ size) ∧ 0 < d.len ∧ size < d.stop ∧
    ∃ c ∈ copies, d.place = c.place ∧ d.pos = c.pos ∧ d.len ≤ c.len

theorem Overflows.cons {c : Copy} {clipped : List Copy} (within : c.stop ≤ size) (rest : Overflows size copies clipped) :
    Overflows size (c :: copies) (c :: clipped) := by
  rcases rest with ⟨before, d, after, rfl, full, some, exceeds, origin, member, same⟩
  refine ⟨c :: before, d, after, rfl, ?_, some, exceeds, origin, List.mem_cons_of_mem _ member, same⟩
  intro b among
  rcases List.mem_cons.mp among with rfl | later
  · exact ⟨List.mem_cons_self, within⟩
  · exact ⟨List.mem_cons_of_mem _ (full b later).1, (full b later).2⟩

/-- Behind a gap more is left than there is room. -/
theorem clip_loose (ordered : InOrder size start copies) (more : 0 < left) (loose : size < start + left)
    (long : ∃ c ∈ copies, size < c.stop) : Overflows size copies (clip copies left) := by
  induction copies generalizing start left with
  | nil =>
    rcases long with ⟨c, member, -⟩
    cases member
  | cons c rest ih =>
    rcases ordered with ⟨first, some, inside, -⟩
    unfold stop at inside
    by_cases within : c.stop ≤ size
    · unfold stop at within
      have whole : min c.len left = c.len := by omega
      rw [clip, whole]
      apply Overflows.cons within
      apply ih (inside (by omega)) (by omega) (by omega)
      rcases long with ⟨d, member, exceeds⟩
      rcases List.mem_cons.mp member with rfl | later
      · unfold stop at exceeds
        omega
      · exact ⟨d, later, exceeds⟩
    · unfold stop at within
      refine ⟨[], ⟨c.place, c.pos, min c.len left⟩, _, rfl, nofun, ?_, ?_, c, List.mem_cons_self, rfl, rfl,
        Nat.min_le_left _ _⟩
      · dsimp only
        omega
      · dsimp only [stop]
        omega

theorem clip_gap (ordered : InOrder size start copies) (gap : ∃ o, start ≤ o ∧ o < size ∧ ¬ Covers copies o)
    (long : ∃ c ∈ copies, size < c.stop) : Overflows size copies (clip copies (size - start)) := by
  induction copies generalizing start with
  | nil =>
    rcases long with ⟨c, member, -⟩
    cases member
  | cons c rest ih =>
    rcases gap with ⟨o, behind, below, none⟩
    rw [covers_cons, not_or, not_and] at none
    by_cases here : c.pos = start
    · have after := none.1 (by omega)
      have within : c.stop ≤ size := by omega
      have inside := ordered.2.2.1 (by omega)
      have some := ordered.2.1
      have whole : min c.len (size - start) = c.len := by
        unfold stop at within
        omega
      have left : size - start - c.len = size - c.stop := by
        unfold stop
        omega
      rw [clip, whole, left]
      apply Overflows.cons within
      apply ih inside ⟨o, by omega, below, none.2⟩
      rcases long with ⟨d, member, exceeds⟩
      rcases List.mem_cons.mp member with rfl | later
      · omega
      · exact ⟨d, later, exceeds⟩
    · have first := ordered.1
      exact clip_loose (show InOrder size c.pos (c :: rest) from ⟨Nat.le_refl _, ordered.2⟩) (by omega) (by omega) long

/-! ## What the copies put below the size -/

def copyTo (src : File) (file : File) (c : Copy) : File := file.writeAt c.pos (src.readAt c.place c.len)

def copyAll (src : File) (copies : List Copy) (file : File) : File := copies.foldl (copyTo src) file

variable {src : File}

theorem copyTo_byte (file : File) (c : Copy) {o : Nat} (whole : c.place + c.len ≤ src.size) :
    (copyTo src file c).byte o = if c.pos ≤ o ∧ o < c.stop then src.byte (c.place + (o - c.pos)) else file.byte o := by
  have length := src.readAt_length c.place c.len
  unfold copyTo stop
  split
  · rw [File.writeAt_byte_inside _ _ _ _ (by omega) (by omega), File.readAt_getD _ (by omega)]
  · exact File.writeAt_byte_outside _ _ _ _ (by omega)

theorem copyAll_beyond {file : File} {o : Nat} (beyond : ∀ c ∈ copies, o < c.pos) :
    (copyAll src copies file).byte o = file.byte o := by
  induction copies generalizing file with
  | nil => rfl
  | cons c rest ih =>
    have far := beyond c List.mem_cons_self
    rw [copyAll, List.foldl_cons]
    exact (ih fun d later => beyond d (List.mem_cons_of_mem _ later)).trans (File.writeAt_byte_outside _ _ _ _ (by omega))

theorem copyAll_none (none : ∀ c ∈ copies, c.len = 0) (file : File) : copyAll src copies file = file := by
  induction copies generalizing file with
  | nil => rfl
  | cons c rest ih =>
    rw [List.forall_mem_cons] at none
    have first : copyTo src file c = file := by
      rw [copyTo, none.1]
      exact File.writeAt_nil _ _
    rw [copyAll, List.foldl_cons, first]
    exact ih none.2 file

/-- The size is the one of the file or the end of a copy. -/
theorem copyAll_size_le (whole : ∀ c ∈ copies, c.len = 0 ∨ c.place + c.len ≤ src.size) {file : File} {bound : Nat} :
    (copyAll src copies file).size ≤ bound ↔ file.size ≤ bound ∧ ∀ c ∈ copies, c.len = 0 ∨ c.stop ≤ bound := by
  induction copies generalizing file with
  | nil => exact (and_iff_left nofun).symm
  | cons c rest ih =>
    rw [List.forall_mem_cons] at whole
    rw [List.forall_mem_cons, copyAll, List.foldl_cons]
    have tail := @ih whole.2 (copyTo src file c)
    unfold copyAll at tail
    rw [tail, ← and_assoc]
    apply and_congr_left
    intro _
    have length := src.readAt_length c.place c.len
    unfold copyTo
    by_cases none : c.len = 0
    · rw [none, Nat.zero_min] at length
      rw [none, List.eq_nil_of_length_eq_zero length, File.writeAt_nil]
      exact (and_iff_left (.inl rfl)).symm
    · have full : (src.readAt c.place c.len).length = c.len := by omega
      rw [File.writeAt_size _ _ _ (fun empty => none (by rw [← full, empty, List.length_nil])), full, max_le_iff, or_iff_right none]
      rfl

theorem copyAll_clip_byte (ordered : InOrder size start copies) (enough : size ≤ start + left)
    (whole : ∀ c ∈ copies, c.pos < size → c.place + c.len ≤ src.size) {file : File} {o : Nat} (below : o < size) :
    (∀ c ∈ copies, c.pos ≤ o → o < c.stop → (copyAll src (clip copies left) file).byte o = src.byte (c.place + (o - c.pos))) ∧
      (¬ Covers copies o → (copyAll src (clip copies left) file).byte o = file.byte o) := by
  induction copies generalizing start left file with
  | nil => exact ⟨nofun, fun _ => rfl⟩
  | cons c rest ih =>
    rcases ordered with ⟨first, some, inside, beyond⟩
    by_cases less : c.pos < size
    · have next := inside less
      have read := whole c List.mem_cons_self less
      have rests := @ih c.stop (left - min c.len left) next (by unfold stop; omega)
        (fun d later => whole d (List.mem_cons_of_mem _ later)) (copyTo src file ⟨c.place, c.pos, min c.len left⟩)
      have byte := @copyTo_byte src file ⟨c.place, c.pos, min c.len left⟩ o (by dsimp only; omega)
      dsimp only [stop] at byte
      rw [clip, copyAll, List.foldl_cons]
      constructor
      · intro d member before after
        rcases List.mem_cons.mp member with rfl | later
        · have none : ¬ Covers rest o := by
            rintro ⟨e, later, front, -⟩
            have apart := next.behind later (by omega)
            omega
          unfold stop at after
          refine (rests.2 none).trans (byte.trans (if_pos ?_))
          omega
        · exact rests.1 d later before after
      · intro none
        rw [covers_cons, not_or, not_and] at none
        refine (rests.2 none.2).trans (byte.trans (if_neg ?_))
        have out := none.1
        unfold stop at out
        omega
    · have far (d : Copy) (member : d ∈ c :: rest) : size ≤ d.pos := by
        rcases List.mem_cons.mp member with rfl | later
        · omega
        · exact beyond (by omega) d later
      constructor
      · intro d member before
        have away := far d member
        omega
      · intro _
        apply copyAll_beyond
        intro d member
        rcases clip_mem _ _ d member with ⟨e, among, -, same, -⟩
        have away := far e among
        omega

end Copy

end Storage
