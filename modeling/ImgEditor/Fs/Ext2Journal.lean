import ImgEditor.Fs.Ext2
import ImgEditor.Storage.Walk

namespace ImgEditor

open Storage

def JBD2_FEATURE_INCOMPAT_64BIT : Nat := 0x02
def JBD2_FEATURE_INCOMPAT_CSUM_V3 : Nat := 0x10
def JBD2_FEATURE_INCOMPAT_CSUM_V2_3 : Nat := 0x18
def EXT3_JOURNAL_MAGIC_NUMBER : Nat := 0xc03b3998
def EXT3_JOURNAL_DESCRIPTOR_BLOCK : Nat := 1
def EXT3_JOURNAL_REVOKE_BLOCK : Nat := 5
def EXT3_JOURNAL_FLAG_SAME_UUID : Nat := 2
def EXT3_JOURNAL_FLAG_LAST_TAG : Nat := 8

def sizeofJournalHeader : Nat := 12

/-! Fields of a `struct journal_header_t`, and of the superblock behind the first one. -/

def hMagic (m : Memory) (h : Nat) : Nat := memBeField m h 4
def hBlocktype (m : Memory) (h : Nat) : Nat := memBeField m (h + 4) 4
def sBlocksize (m : Memory) : Nat := memBeField m sizeofJournalHeader 4
def sFeatureIncompat (m : Memory) : Nat := memBeField m (sizeofJournalHeader + 28) 4

def journalDescriptorBlocktagSize (incompatFeatures : Nat) : Nat :=
  if incompatFeatures &&& JBD2_FEATURE_INCOMPAT_CSUM_V3 ≠ 0 then 16
  else if incompatFeatures &&& JBD2_FEATURE_INCOMPAT_64BIT = 0 then 12 - 4 else 12

structure JournalTag where
  blocknr : Nat
  flags : Nat
deriving DecidableEq

/-- A `struct journal_block_tag3_s` or a `struct journal_block_tag_s`. -/
def journalTag (m : Memory) (p : Nat) : JournalTag :=
  if sFeatureIncompat m &&& JBD2_FEATURE_INCOMPAT_CSUM_V3 ≠ 0 then
    ⟨memBeField m (p + 8) 4 * 2^32 + memBeField m p 4, memBeField m (p + 4) 4⟩
  else
    let high := if sFeatureIncompat m &&& JBD2_FEATURE_INCOMPAT_64BIT ≠ 0 then memBeField m (p + 8) 4 else 0
    ⟨high * 2^32 + memBeField m p 4, memBeField m (p + 6) 2⟩

def journalTagsize (m : Memory) : Nat := journalDescriptorBlocktagSize (sFeatureIncompat m)
def journalTailsize (m : Memory) : Nat := if sFeatureIncompat m &&& JBD2_FEATURE_INCOMPAT_CSUM_V2_3 ≠ 0 then 4 else 0

/-- A tag may begin up to here in its block; the difference is a `size_t`. -/
def journalLastTag (m : Memory) : Nat := (sBlocksize m + 2^64 - journalTagsize m - journalTailsize m) % 2^64

def IsLastTag (m : Memory) (p : Nat) : Prop := (journalTag m p).flags &&& EXT3_JOURNAL_FLAG_LAST_TAG ≠ 0

instance (m : Memory) (p : Nat) : Decidable (IsLastTag m p) := inferInstanceAs (Decidable (_ ≠ _))

def journalTagBehind (m : Memory) (p : Nat) : Nat :=
  p + journalTagsize m + if (journalTag m p).flags &&& EXT3_JOURNAL_FLAG_SAME_UUID = 0 then 16 else 0

/-- At the head of the loop of `ext2_foreach_journal`, or of the one of `ext2_journal_foreach_descriptor` for the
descriptor at `this`; places are offsets in the journal buffer. -/
inductive JournalState where
  | block (p journalBlkno : Nat)
  | tags (this journalStartBlkno p dataBlks : Nat)
deriving DecidableEq

def IsDescriptor (m : Memory) (h : Nat) : Prop :=
  hMagic m h = EXT3_JOURNAL_MAGIC_NUMBER ∧ hBlocktype m h = EXT3_JOURNAL_DESCRIPTOR_BLOCK

instance (m : Memory) (h : Nat) : Decidable (IsDescriptor m h) := inferInstanceAs (Decidable (_ ∧ _))

def journalSkip (m : Memory) (this journalBlkno dataBlks : Nat) : JournalState :=
  .block (this + (sBlocksize m + dataBlks * sBlocksize m) % 2^32) ((journalBlkno + dataBlks + 1) % 2^32)

/-- One pass of a loop; no handler of the source sets `break_next`. What lies behind the buffer is in the memory too. -/
def journalNext (m : Memory) (journalSize : Nat) : JournalState → Option JournalState
  | .block p journalBlkno =>
    if toInt32 journalSize ≤ p then none
    else if IsDescriptor m p then some (.tags p journalBlkno (p + sizeofJournalHeader) 0)
    else some (journalSkip m p journalBlkno 0)
  | .tags this journalStartBlkno p dataBlks =>
    if p - this ≤ journalLastTag m then
      let dataBlks := (dataBlks + 1) % 2^32
      if IsLastTag m p then some (journalSkip m this journalStartBlkno dataBlks)
      else some (.tags this journalStartBlkno (journalTagBehind m p) dataBlks)
    else some (journalSkip m this journalStartBlkno dataBlks)

inductive JournalReport where
  | header (this journalBlkno : Nat)
  | tag (this fsBlocknr journalBlocknr flags : Nat)

def journalReport (m : Memory) (journalSize : Nat) : JournalState → Option JournalReport
  | .block p journalBlkno =>
    if (p : Int) < toInt32 journalSize ∧ hMagic m p = EXT3_JOURNAL_MAGIC_NUMBER ∧
        EXT3_JOURNAL_DESCRIPTOR_BLOCK ≤ hBlocktype m p ∧ hBlocktype m p ≤ EXT3_JOURNAL_REVOKE_BLOCK then
      some (.header p journalBlkno)
    else none
  | .tags this journalStartBlkno p dataBlks =>
    if p - this ≤ journalLastTag m then
      some (.tag this (journalTag m p).blocknr ((journalStartBlkno + (dataBlks + 1) % 2^32) % 2^32) (journalTag m p).flags)
    else none

def JournalVisits (m : Memory) (journalSize : Nat) : JournalState → Prop := Visits (journalNext m journalSize) (.block 0 0)

/-! ## The tags of a descriptor -/

def journalTagAt (m : Memory) (this : Nat) : Nat → Nat
  | 0 => this + sizeofJournalHeader
  | k + 1 => journalTagBehind m (journalTagAt m this k)

/-- A tag that begins early enough in the block, with no last tag in front of it. -/
def HasTag (m : Memory) (this k : Nat) : Prop :=
  journalTagAt m this k - this ≤ journalLastTag m ∧ ∀ j < k, ¬ IsLastTag m (journalTagAt m this j)

section Tags

variable {m : Memory} {this : Nat}

theorem journalTagsize_bounds (m : Memory) : 8 ≤ journalTagsize m ∧ journalTagsize m ≤ 16 := by
  unfold journalTagsize journalDescriptorBlocktagSize
  split
  · omega
  · split <;> omega

theorem journalTailsize_le (m : Memory) : journalTailsize m ≤ 4 := by
  unfold journalTailsize
  split <;> omega

theorem journalTagAt_grows (m : Memory) (this k : Nat) :
    this + sizeofJournalHeader + k * journalTagsize m ≤ journalTagAt m this k := by
  induction k with
  | zero => rw [Nat.zero_mul]; exact Nat.le_refl _
  | succ k ih =>
    rw [journalTagAt, journalTagBehind, Nat.succ_mul]
    omega

theorem journalTagAt_mono {j k : Nat} (le : j ≤ k) : journalTagAt m this j ≤ journalTagAt m this k := by
  induction k, le using Nat.le_induction with
  | base => exact Nat.le_refl _
  | succ k _ ih =>
    rw [journalTagAt, journalTagBehind]
    omega

theorem HasTag.earlier {j k : Nat} (there : HasTag m this k) (le : j ≤ k) : HasTag m this j := by
  have mono := @journalTagAt_mono m this j k le
  refine ⟨?_, fun i less => there.2 i (by omega)⟩
  have bound := there.1
  omega

end Tags

/-- The blocks can hold a tag and the tail, and the data blocks of no descriptor are too many for 32 bits. -/
structure JournalSized (m : Memory) : Prop where
  large : journalTagsize m + journalTailsize m ≤ sBlocksize m
  small : ∀ n, sizeofJournalHeader + n * journalTagsize m + journalTailsize m ≤ sBlocksize m →
    (n + 1) * sBlocksize m < 2^32

namespace JournalSized

variable {m : Memory} (sized : JournalSized m)

include sized

theorem lastTag : journalLastTag m = sBlocksize m - journalTagsize m - journalTailsize m := by
  have large := sized.large
  have bounds := journalTagsize_bounds m
  have small := sized.small 0
  unfold journalLastTag
  unfold sizeofJournalHeader at small
  omega

theorem count {this k : Nat} (there : HasTag m this k) : (k + 2) * sBlocksize m < 2^32 ∧ k + 2 < 2^29 := by
  have bounds := journalTagsize_bounds m
  have large := sized.large
  have grows := journalTagAt_grows m this k
  have bound := there.1
  rw [sized.lastTag] at bound
  have small : (k + 1 + 1) * sBlocksize m < 2^32 := by
    apply sized.small (k + 1)
    rw [Nat.succ_mul]
    unfold sizeofJournalHeader at grows ⊢
    omega
  have least := Nat.mul_le_mul_left (k + 1 + 1) (show 8 ≤ sBlocksize m by omega)
  exact ⟨small, by omega⟩

theorem product {this n : Nat} (there : ∀ j < n, HasTag m this j) : (n + 1) * sBlocksize m < 2^32 ∧ n + 1 < 2^29 := by
  cases n with
  | zero =>
    have bounds := journalTagsize_bounds m
    have large := sized.large
    have small := sized.small 0
    have tail := journalTailsize_le m
    unfold sizeofJournalHeader at small
    omega
  | succ k => exact sized.count (there k (Nat.lt_succ_self k))

/-- Behind tags that are there, the place and the number of the next block go on together. -/
theorem skip {this b n : Nat} (there : ∀ j < n, HasTag m this j) (near : b * sBlocksize m < 2^31) :
    journalSkip m (b * sBlocksize m) b n = .block ((b + n + 1) * sBlocksize m) (b + n + 1) := by
  have bounds := journalTagsize_bounds m
  have large := sized.large
  have small := sized.product there
  have least := Nat.mul_le_mul_left b (show 8 ≤ sBlocksize m by omega)
  unfold journalSkip
  rw [Nat.mod_eq_of_lt (show b + n + 1 < 2^32 by omega), Nat.add_comm (sBlocksize m), ← Nat.succ_mul,
    Nat.mod_eq_of_lt small.1, ← Nat.add_mul, Nat.add_assoc b n 1]

end JournalSized

def JournalAt (m : Memory) (journalSize : Nat) : JournalState → Prop
  | .block p b => p = b * sBlocksize m
  | .tags this b p n => this = b * sBlocksize m ∧ (this : Int) < toInt32 journalSize ∧ IsDescriptor m this ∧
      p = journalTagAt m this n ∧ ∀ j < n, HasTag m this j ∧ ¬ IsLastTag m (journalTagAt m this j)

def JournalState.blkno : JournalState → Nat
  | .block _ b => b
  | .tags _ b _ _ => b

section Numbers

variable {m : Memory} {size : Nat}

theorem near_of_lt {p : Nat} (less : (p : Int) < toInt32 size) : p < 2^31 := by
  have bound := @Int.bmod_lt size (2^32) (by decide)
  unfold toInt32 at less
  omega

theorem visits_tag {this b k : Nat} (inside : (this : Int) < toInt32 size) (descriptor : IsDescriptor m this)
    (read : ∀ j < k, HasTag m this j ∧ ¬ IsLastTag m (journalTagAt m this j)) :
    Visits (journalNext m size) (.block this b) (.tags this b (journalTagAt m this k) (k % 2^32)) := by
  induction k with
  | zero =>
    apply Visits.of_next
    rw [journalNext, if_neg (Int.not_le.mpr inside), if_pos descriptor]
    rfl
  | succ k ih =>
    have before := read k (Nat.lt_succ_self k)
    refine (ih fun j less => read j (Nat.lt_succ_of_lt less)).step ?_
    simp only [journalNext]
    rw [if_pos before.1.1, if_neg before.2, Nat.mod_add_mod]
    rfl

theorem HasTag.read {this k : Nat} (there : HasTag m this k) :
    ∀ j < k, HasTag m this j ∧ ¬ IsLastTag m (journalTagAt m this j) :=
  fun j less => ⟨there.earlier (Nat.le_of_lt less), there.2 j less⟩

theorem HasTag.of_tags {this n : Nat} (read : ∀ j < n, HasTag m this j ∧ ¬ IsLastTag m (journalTagAt m this j))
    (room : journalTagAt m this n - this ≤ journalLastTag m) : HasTag m this n :=
  ⟨room, fun j less => (read j less).2⟩

theorem JournalAt.next (sized : JournalSized m) {s t : JournalState} (numbered : JournalAt m size s)
    (more : journalNext m size s = some t) :
    (∃ b, s = .block (b * sBlocksize m) b ∧ b * sBlocksize m < 2^31 ∧
      (t = .block ((b + 1) * sBlocksize m) (b + 1) ∧ ¬ IsDescriptor m (b * sBlocksize m) ∨
        t = .tags (b * sBlocksize m) b (b * sBlocksize m + sizeofJournalHeader) 0 ∧
          ((b * sBlocksize m : Nat) : Int) < toInt32 size ∧ IsDescriptor m (b * sBlocksize m))) ∨
    ∃ b n, s = .tags (b * sBlocksize m) b (journalTagAt m (b * sBlocksize m) n) n ∧
      (t = .tags (b * sBlocksize m) b (journalTagAt m (b * sBlocksize m) (n + 1)) (n + 1) ∧
          HasTag m (b * sBlocksize m) n ∧ ¬ IsLastTag m (journalTagAt m (b * sBlocksize m) n) ∨
        ∃ c, t = .block (c * sBlocksize m) c ∧ b < c ∧ ∀ k, HasTag m (b * sBlocksize m) k → b + k + 2 ≤ c) := by
  cases s with
  | block p b =>
    rw [show p = b * sBlocksize m from numbered] at more ⊢
    simp only [journalNext] at more
    split at more
    · cases more
    · rename_i inside
      have near := near_of_lt (Int.not_le.mp inside)
      refine .inl ⟨b, rfl, near, ?_⟩
      split at more
      · rename_i descriptor
        exact .inr ⟨(Option.some.inj more).symm, Int.not_le.mp inside, descriptor⟩
      · rename_i other
        refine .inl ⟨?_, other⟩
        rw [← Option.some.inj more]
        exact @JournalSized.skip m sized 0 b 0 (fun j less => absurd less (Nat.not_lt_zero j)) near
  | tags this b p n =>
    rcases numbered with ⟨rfl, inside, descriptor, rfl, read⟩
    have near := near_of_lt inside
    refine .inr ⟨b, n, rfl, ?_⟩
    simp only [journalNext] at more
    split at more
    · rename_i room
      have there := HasTag.of_tags read room
      have few := sized.count there
      have count : (n + 1) % 2^32 = n + 1 := Nat.mod_eq_of_lt (by omega)
      simp only [count] at more
      split at more
      · rename_i last
        refine .inr ⟨b + (n + 1) + 1, ?_, by omega, ?_⟩
        · rw [← Option.some.inj more]
          exact sized.skip (fun j less => there.earlier (Nat.le_of_lt_succ less)) near
        · intro k other
          have no := other.2 n
          by_cases behind : n < k
          · exact absurd last (no behind)
          · omega
      · rename_i goes
        exact .inl ⟨(Option.some.inj more).symm, there, goes⟩
    · rename_i full
      refine .inr ⟨b + n + 1, ?_, by omega, ?_⟩
      · rw [← Option.some.inj more]
        exact sized.skip (fun j less => (read j less).1) near
      · intro k other
        by_cases behind : k < n
        · omega
        · exact absurd (other.earlier (Nat.not_lt.mp behind)).1 full

theorem JournalAt.kept (sized : JournalSized m) {s t : JournalState} (numbered : JournalAt m size s)
    (more : journalNext m size s = some t) : JournalAt m size t := by
  rcases numbered.next sized more with ⟨b, rfl, _, ⟨rfl, _⟩ | ⟨rfl, inside, descriptor⟩⟩ |
    ⟨b, n, rfl, ⟨rfl, there, goes⟩ | ⟨c, rfl, _, _⟩⟩
  · exact rfl
  · exact ⟨rfl, inside, descriptor, rfl, fun j less => absurd less (Nat.not_lt_zero j)⟩
  · rcases numbered with ⟨_, inside, descriptor, _, read⟩
    refine ⟨rfl, inside, descriptor, rfl, fun j less => ?_⟩
    rcases Nat.lt_succ_iff_lt_or_eq.mp less with before | rfl
    · exact read j before
    · exact ⟨there, goes⟩
  · exact rfl

theorem JournalVisits.numbered (sized : JournalSized m) {s : JournalState} (visited : JournalVisits m size s) :
    JournalAt m size s :=
  visited.invariant (Nat.zero_mul _).symm fun _ _ numbered more => numbered.kept sized more

theorem JournalAt.blkno_le (sized : JournalSized m) {s t : JournalState} (numbered : JournalAt m size s)
    (more : journalNext m size s = some t) : s.blkno ≤ t.blkno := by
  rcases numbered.next sized more with ⟨b, rfl, _, ⟨rfl, _⟩ | ⟨rfl, _⟩⟩ | ⟨b, n, rfl, ⟨rfl, _⟩ | ⟨c, rfl, after, _⟩⟩
  · exact Nat.le_succ b
  · exact Nat.le_refl b
  · exact Nat.le_refl b
  · exact Nat.le_of_lt after

theorem JournalAt.behind (sized : JournalSized m) {s t : JournalState} (numbered : JournalAt m size s)
    (behind : Visits (journalNext m size) s t) : JournalAt m size t ∧ s.blkno ≤ t.blkno := by
  refine behind.invariant (I := fun t => JournalAt m size t ∧ s.blkno ≤ t.blkno) ⟨numbered, Nat.le_refl _⟩ ?_
  rintro u v ⟨held, least⟩ more
  exact ⟨held.kept sized more, Nat.le_trans least (held.blkno_le sized more)⟩

/-- Behind a descriptor the loop is at its tags, or past the blocks that they cover. -/
theorem JournalAt.past (sized : JournalSized m) {b k : Nat} {t : JournalState} (there : HasTag m (b * sBlocksize m) k)
    (numbered : JournalAt m size (.block (b * sBlocksize m) b)) (descriptor : IsDescriptor m (b * sBlocksize m))
    (behind : Visits (journalNext m size) (.block (b * sBlocksize m) b) t) :
    t = .block (b * sBlocksize m) b ∨ (∃ p n, t = .tags (b * sBlocksize m) b p n) ∨ b + k + 2 ≤ t.blkno := by
  have kept : JournalAt m size t ∧
      (t = .block (b * sBlocksize m) b ∨ (∃ p n, t = .tags (b * sBlocksize m) b p n) ∨ b + k + 2 ≤ t.blkno) := by
    refine behind.invariant (I := fun t => JournalAt m size t ∧
      (t = .block (b * sBlocksize m) b ∨ (∃ p n, t = .tags (b * sBlocksize m) b p n) ∨ b + k + 2 ≤ t.blkno))
      ⟨numbered, .inl rfl⟩ ?_
    rintro u v ⟨held, place⟩ more
    refine ⟨held.kept sized more, .inr ?_⟩
    have grows := held.blkno_le sized more
    have pass := held.next sized more
    rcases place with rfl | ⟨p, n, rfl⟩ | far
    · rcases pass with ⟨c, same, _, ⟨rfl, other⟩ | ⟨rfl, _⟩⟩ | ⟨_, _, same, _⟩
      · obtain ⟨_, rfl⟩ := JournalState.block.inj same
        exact absurd descriptor other
      · obtain ⟨_, rfl⟩ := JournalState.block.inj same
        exact .inl ⟨_, _, rfl⟩
      · cases same
    · rcases pass with ⟨_, same, _⟩ | ⟨c, _, same, ⟨rfl, _⟩ | ⟨_, rfl, _, ahead⟩⟩
      · cases same
      · obtain ⟨_, rfl, _⟩ := JournalState.tags.inj same
        exact .inl ⟨_, _, rfl⟩
      · obtain ⟨_, rfl, _⟩ := JournalState.tags.inj same
        exact .inr (ahead k there)
    · exact .inr (Nat.le_trans far grows)
  exact kept.2

end Numbers

/-- A tag of a descriptor, in the words of the handler; tag 0 is logged in the block behind the descriptor. -/
def journalTagReport (m : Memory) (this b k : Nat) : JournalReport :=
  let tag := journalTag m (journalTagAt m this k)
  .tag this tag.blocknr (b + k + 1) tag.flags

structure VisitsDescriptor (m : Memory) (journalSize this b : Nat) : Prop where
  visited : JournalVisits m journalSize (.block this b)
  inside : (this : Int) < toInt32 journalSize
  descriptor : IsDescriptor m this

structure JournalNumbered (m : Memory) (journalSize : Nat) : Prop where
  cursor : ∀ p b, JournalVisits m journalSize (.block p b) → p = b * sBlocksize m
  headers : ∀ s this b, JournalVisits m journalSize s → journalReport m journalSize s = some (.header this b) →
    this = b * sBlocksize m
  tags : ∀ this b k, VisitsDescriptor m journalSize this b → HasTag m this k →
    ∃ s, JournalVisits m journalSize s ∧ journalReport m journalSize s = some (journalTagReport m this b k)
  noOther : ∀ s this fsBlocknr journalBlocknr flags, JournalVisits m journalSize s →
    journalReport m journalSize s = some (.tag this fsBlocknr journalBlocknr flags) →
    ∃ b k, VisitsDescriptor m journalSize this b ∧ HasTag m this k ∧
      JournalReport.tag this fsBlocknr journalBlocknr flags = journalTagReport m this b k
  covered : ∀ this b k p c, VisitsDescriptor m journalSize this b → HasTag m this k →
    JournalVisits m journalSize (.block p c) → c ≤ b ∨ b + k + 1 < c

section Numbered

variable {m : Memory} {size : Nat}

theorem journalReport_tag (sized : JournalSized m) {this b k : Nat} (there : HasTag m this k)
    (inside : (this : Int) < toInt32 size) (same : this = b * sBlocksize m) :
    journalReport m size (.tags this b (journalTagAt m this k) k) = some (journalTagReport m this b k) := by
  have few := sized.count there
  have near := near_of_lt inside
  have bounds := journalTagsize_bounds m
  have least := Nat.mul_le_mul_left b (show 8 ≤ sBlocksize m from Nat.le_trans (by omega) sized.large)
  simp only [journalReport]
  rw [if_pos there.1, Nat.mod_eq_of_lt (show k + 1 < 2^32 by omega), Nat.mod_eq_of_lt (by omega)]
  rfl

theorem JournalVisits.descriptor (sized : JournalSized m) {this b p n : Nat}
    (visited : JournalVisits m size (.tags this b p n)) : VisitsDescriptor m size this b := by
  have first : ∀ s, JournalVisits m size s → ∀ this b p n, s = .tags this b p n → JournalVisits m size (.block this b) := by
    intro s reached
    induction reached with
    | start => exact fun _ _ _ _ same => nomatch same
    | step before more ih =>
      rintro this b p n rfl
      rcases (JournalVisits.numbered sized before).next sized more with
        ⟨c, rfl, _, ⟨same, _⟩ | ⟨same, _⟩⟩ | ⟨c, k, rfl, ⟨same, _⟩ | ⟨_, same, _⟩⟩
      · cases same
      · obtain ⟨rfl, rfl, _⟩ := JournalState.tags.inj same
        exact before
      · obtain ⟨rfl, rfl, _⟩ := JournalState.tags.inj same
        exact ih _ _ _ _ rfl
      · cases same
  rcases visited.numbered sized with ⟨_, inside, descriptor, _⟩
  exact ⟨first _ visited _ _ _ _ rfl, inside, descriptor⟩

end Numbered

/-- Blocks of 64 bytes: a superblock, a descriptor with two tags, and the data of both. -/
def smallJournal : List Byte :=
  [0xc0#8, 0x3b#8, 0x39#8, 0x98#8, 0#8, 0#8, 0#8, 4#8, 0#8, 0#8, 0#8, 0#8, 0#8, 0#8, 0#8, 64#8] ++ List.replicate 48 0#8 ++
  [0xc0#8, 0x3b#8, 0x39#8, 0x98#8, 0#8, 0#8, 0#8, 1#8, 0#8, 0#8, 0#8, 1#8,
    0#8, 0#8, 0#8, 7#8, 0#8, 0#8, 0#8, 2#8, 0#8, 0#8, 0#8, 9#8, 0#8, 0#8, 0#8, 10#8] ++ List.replicate 164 0#8

def smallJournalMemory : Memory := bufferMemory (fun _ => 0#8) smallJournal

theorem smallJournal_numbers : sBlocksize smallJournalMemory = 64 ∧ journalTagsize smallJournalMemory = 8 ∧
    journalTailsize smallJournalMemory = 0 := by
  decide +kernel

theorem smallJournal_sized : JournalSized smallJournalMemory := by
  rcases smallJournal_numbers with ⟨blocksize, tagsize, tailsize⟩
  constructor
  · omega
  · intro n fits
    unfold sizeofJournalHeader at fits
    rw [blocksize, tagsize] at fits
    rw [blocksize]
    omega

end ImgEditor
