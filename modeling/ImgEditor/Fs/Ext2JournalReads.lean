import ImgEditor.Fs.Ext2Journal

namespace ImgEditor

open Storage

def journalRead (m : Memory) (journalSize : Nat) : JournalState → Option (Nat × Nat)
  | .block p _ => if (p : Int) < toInt32 journalSize then some (p, sizeofJournalHeader) else none
  | .tags this _ p _ => if p - this ≤ journalLastTag m then some (p, journalTagsize m) else none

structure JournalSafe (m : Memory) (journalSize : Nat) : Prop where
  ends : Ends (journalNext m journalSize) (.block 0 0)
  inside : ∀ s p n, JournalVisits m journalSize s → journalRead m journalSize s = some (p, n) → p + n ≤ journalSize

/-- The number of the tags of the block at `p`, 0 for other blocks than descriptors. -/
def TagCount (m : Memory) (p n : Nat) : Prop :=
  (∀ k < n, IsDescriptor m p ∧ HasTag m p k) ∧ (IsDescriptor m p → ¬ HasTag m p n)

/-- Where the data blocks of the block at `p` end, `n` being their number. -/
def journalBehind (m : Memory) (p n : Nat) : Nat := p + (n + 1) * sBlocksize m % 2^32

/-- The places of the blocks that are not data of a descriptor in front of them. -/
inductive JournalChain (m : Memory) (journalSize : Nat) : Nat → Prop
  | first : JournalChain m journalSize 0
  | next {p n : Nat} (chain : JournalChain m journalSize p) (less : (p : Int) < toInt32 journalSize)
      (count : TagCount m p n) : JournalChain m journalSize (journalBehind m p n)

/-- The header and the tags of the block at `p` are in the buffer, and another block is behind its data. -/
def JournalBlockFits (m : Memory) (journalSize p : Nat) : Prop :=
  p + sizeofJournalHeader ≤ journalSize ∧
    ∃ n, TagCount m p n ∧ (∀ k < n, journalTagAt m p k + journalTagsize m ≤ journalSize) ∧
      (n + 1) * sBlocksize m % 2^32 ≠ 0

def JournalFits (m : Memory) (journalSize : Nat) : Prop :=
  ∀ p, JournalChain m journalSize p → (p : Int) < toInt32 journalSize → JournalBlockFits m journalSize p

section Reads

variable {m : Memory} {size : Nat}

theorem journalSkip_eq (m : Memory) (p b n : Nat) :
    journalSkip m p b (n % 2^32) = .block (journalBehind m p n) ((b + n + 1) % 2^32) := by
  have product : (sBlocksize m + n % 2^32 * sBlocksize m) % 2^32 = (n + 1) * sBlocksize m % 2^32 := by
    rw [Nat.add_mod, Nat.mod_mul_mod, ← Nat.add_mod, Nat.succ_mul, Nat.add_comm]
  unfold journalSkip journalBehind
  rw [product, Nat.add_right_comm, Nat.add_mod_mod, Nat.add_right_comm]

theorem TagCount.visits {p n : Nat} (count : TagCount m p n) (less : (p : Int) < toInt32 size) (b : Nat) :
    ∃ s, journalNext m size (.block p b) = some s ∧
      Visits (journalNext m size) s (.block (journalBehind m p n) ((b + n + 1) % 2^32)) := by
  by_cases descriptor : IsDescriptor m p
  · have final : ∃ k, (∀ j < k, HasTag m p j ∧ ¬ IsLastTag m (journalTagAt m p j)) ∧
        journalNext m size (.tags p b (journalTagAt m p k) (k % 2^32)) = some (journalSkip m p b (n % 2^32)) := by
      have none := count.2 descriptor
      have few := fun k less => (count.1 k less).2
      cases n with
      | zero =>
        have full : ¬ journalTagAt m p 0 - p ≤ journalLastTag m := fun room =>
          none ⟨room, fun j less => absurd less (Nat.not_lt_zero j)⟩
        refine ⟨0, fun j less => absurd less (Nat.not_lt_zero j), ?_⟩
        simp only [journalNext]
        rw [if_neg full]
      | succ k =>
        have there := few k (Nat.lt_succ_self k)
        by_cases last : IsLastTag m (journalTagAt m p k)
        · refine ⟨k, there.read, ?_⟩
          simp only [journalNext]
          rw [if_pos there.1, if_pos last, Nat.mod_add_mod]
        · have read : ∀ j < k + 1, HasTag m p j ∧ ¬ IsLastTag m (journalTagAt m p j) := by
            intro j less
            rcases Nat.lt_succ_iff_lt_or_eq.mp less with before | rfl
            · exact there.read j before
            · exact ⟨there, last⟩
          refine ⟨k + 1, read, ?_⟩
          simp only [journalNext]
          rw [if_neg fun room => none (HasTag.of_tags read room)]
    rcases final with ⟨k, read, skips⟩
    rcases (visits_tag less descriptor read).behind (by intro same; cases same) with ⟨s, first, behind⟩
    rw [journalSkip_eq] at skips
    exact ⟨s, first, behind.step skips⟩
  · have zero : n = 0 := Nat.eq_zero_of_not_pos fun some => descriptor (count.1 0 some).1
    refine ⟨_, ?_, .start⟩
    rw [journalNext, if_neg (Int.not_le.mpr less), if_neg descriptor, ← journalSkip_eq, zero, Nat.zero_mod]

theorem JournalChain.visited {p : Nat} (chain : JournalChain m size p) : ∃ b, JournalVisits m size (.block p b) := by
  induction chain with
  | first => exact ⟨0, .start⟩
  | next _ less count ih =>
    rcases ih with ⟨b, visited⟩
    rcases count.visits less b with ⟨s, first, behind⟩
    exact ⟨_, (visited.step first).trans behind⟩

def JournalIn (m : Memory) (size : Nat) : JournalState → Prop
  | .block p _ => JournalChain m size p
  | .tags this _ p dataBlks => JournalChain m size this ∧ (this : Int) < toInt32 size ∧ IsDescriptor m this ∧
      ∃ k, p = journalTagAt m this k ∧ dataBlks = k % 2^32 ∧ ∀ j < k, HasTag m this j ∧ ¬ IsLastTag m (journalTagAt m this j)

theorem JournalIn.kept {s t : JournalState} (held : JournalIn m size s) (more : journalNext m size s = some t) :
    JournalIn m size t := by
  cases s with
  | block p b =>
    simp only [journalNext] at more
    split at more
    · cases more
    · rename_i inside
      have less := Int.not_le.mp inside
      split at more
      · rename_i descriptor
        rw [← Option.some.inj more]
        exact ⟨held, less, descriptor, 0, rfl, rfl, fun j less => absurd less (Nat.not_lt_zero j)⟩
      · rename_i other
        have skip := journalSkip_eq m p b 0
        rw [← Option.some.inj more, show 0 = 0 % 2^32 from rfl, skip]
        exact JournalChain.next held less ⟨fun k less => absurd less (Nat.not_lt_zero k), fun descriptor => absurd descriptor other⟩
  | tags this b p d =>
    rcases held with ⟨chain, less, descriptor, k, rfl, rfl, read⟩
    simp only [journalNext] at more
    split at more
    · rename_i room
      have there := HasTag.of_tags read room
      rw [Nat.mod_add_mod] at more
      split at more
      · rename_i last
        rw [journalSkip_eq] at more
        rw [← Option.some.inj more]
        refine chain.next less ⟨fun j less => ⟨descriptor, there.earlier (Nat.le_of_lt_succ less)⟩, fun _ later => ?_⟩
        exact later.2 k (Nat.lt_succ_self k) last
      · rename_i goes
        rw [← Option.some.inj more]
        refine ⟨chain, less, descriptor, k + 1, rfl, rfl, fun j less => ?_⟩
        rcases Nat.lt_succ_iff_lt_or_eq.mp less with before | rfl
        · exact read j before
        · exact ⟨there, goes⟩
    · rename_i full
      rw [journalSkip_eq] at more
      rw [← Option.some.inj more]
      exact chain.next less ⟨fun j less => ⟨descriptor, (read j less).1⟩, fun _ later => full later.1⟩

theorem JournalVisits.chain {s : JournalState} (visited : JournalVisits m size s) : JournalIn m size s :=
  visited.invariant .first fun _ _ held more => held.kept more

theorem JournalFits.ends (fits : JournalFits m size) {p : Nat} (chain : JournalChain m size p) (b : Nat) :
    Ends (journalNext m size) (.block p b) := by
  generalize rest : (toInt32 size - p).toNat = r
  induction r using Nat.strong_induction_on generalizing p b with
  | h r ih =>
    by_cases less : (p : Int) < toInt32 size
    · rcases fits p chain less with ⟨_, n, count, _, goes⟩
      rcases count.visits less b with ⟨s, first, behind⟩
      rw [((Visits.of_next first).trans behind).ends_iff]
      refine ih _ ?_ (chain.next less count) _ rfl
      unfold journalBehind
      omega
    · apply ends_of_none
      rw [journalNext, if_pos (Int.not_lt.mp less)]

theorem JournalFits.safe (fits : JournalFits m size) : JournalSafe m size where
  ends := fits.ends .first 0
  inside := by
    intro s q l visited read
    have held := visited.chain
    cases s with
    | block p b =>
      simp only [journalRead] at read
      split at read
      · rename_i less
        obtain ⟨rfl, rfl⟩ := Prod.mk.inj (Option.some.inj read)
        exact (fits p held less).1
      · cases read
    | tags this b p d =>
      rcases held with ⟨chain, less, descriptor, k, rfl, rfl, before⟩
      simp only [journalRead] at read
      split at read
      · rename_i room
        obtain ⟨rfl, rfl⟩ := Prod.mk.inj (Option.some.inj read)
        rcases fits this chain less with ⟨_, n, count, tags, _⟩
        have there := HasTag.of_tags before room
        apply tags k
        by_contra far
        exact count.2 descriptor (there.earlier (Nat.not_lt.mp far))
      · cases read

theorem tagCount_of_stops {p : Nat} (stops : IsDescriptor m p → ∃ n, ¬ HasTag m p n) : ∃ n, TagCount m p n := by
  by_cases descriptor : IsDescriptor m p
  · classical
    have stop := stops descriptor
    refine ⟨Nat.find stop, fun k before => ⟨descriptor, ?_⟩, fun _ => Nat.find_spec stop⟩
    exact Decidable.not_not.mp (Nat.find_min stop before)
  · exact ⟨0, fun k less => absurd less (Nat.not_lt_zero k), fun yes => absurd yes descriptor⟩

/-- A descriptor whose tags do not stop keeps the loop for ever. -/
theorem tagCount_of_ends {p b : Nat} (less : (p : Int) < toInt32 size) (ends : Ends (journalNext m size) (.block p b)) :
    ∃ n, TagCount m p n := by
  refine tagCount_of_stops fun descriptor => ?_
  by_contra never
  have always : ∀ n, HasTag m p n := fun n => Classical.not_not.mp fun no => never ⟨n, no⟩
  have first := visits_tag (b := b) less descriptor (always 0).read
  refine absurd (first.ends_iff.mp ends)
    (not_ends (I := fun s => ∃ k, s = .tags p b (journalTagAt m p k) (k % 2^32)) ⟨0, rfl⟩ ?_)
  rintro s ⟨k, rfl⟩
  refine ⟨.tags p b (journalTagAt m p (k + 1)) ((k + 1) % 2^32), ?_, k + 1, rfl⟩
  simp only [journalNext]
  rw [if_pos (always k).1, if_neg ((always (k + 1)).2 k (Nat.lt_succ_self k)), Nat.mod_add_mod]
  rfl

theorem JournalSafe.fits (safe : JournalSafe m size) : JournalFits m size := by
  intro p chain less
  rcases chain.visited with ⟨b, visited⟩
  rcases tagCount_of_ends less (safe.ends.visited visited) with ⟨n, count⟩
  have header : journalRead m size (.block p b) = some (p, sizeofJournalHeader) := by
    rw [journalRead, if_pos less]
  refine ⟨safe.inside _ _ _ visited header, n, count, fun k before => ?_, fun stays => ?_⟩
  · rcases count.1 k before with ⟨descriptor, there⟩
    refine safe.inside _ _ _ (visited.trans (visits_tag less descriptor there.read)) ?_
    rw [journalRead, if_pos there.1]
  · refine absurd (safe.ends.visited visited) ?_
    apply not_ends_of_return (R := fun s => ∃ c, s = .block p c) ⟨b, rfl⟩
    rintro s ⟨c, rfl⟩
    rcases count.visits less c with ⟨s, first, behind⟩
    unfold journalBehind at behind
    rw [stays, Nat.add_zero] at behind
    exact ⟨_, s, ⟨_, rfl⟩, first, behind⟩

theorem foreachJournal_safe_iff (m : Memory) (size : Nat) : JournalSafe m size ↔ JournalFits m size :=
  ⟨JournalSafe.fits, JournalFits.safe⟩

/-- The size of the blocks is 0. -/
theorem foreachJournal_unsafe : ¬ JournalSafe (fun _ => 0#8) 1024 := by
  rintro ⟨ends, _⟩
  refine not_ends (I := fun s => ∃ b, s = .block 0 b) ⟨0, rfl⟩ ?_ ends
  rintro s ⟨b, rfl⟩
  exact ⟨.block 0 ((b + 1) % 2^32), rfl, _, rfl⟩

/-- A buffer of whole blocks of a size that suits is in no danger. -/
theorem journalFits_of_sized (sized : JournalSized m) (header : sizeofJournalHeader ≤ sBlocksize m)
    (small : size < 2^31) (whole : sBlocksize m ∣ size) : JournalFits m size := by
  have near := toInt32_of_lt small
  intro p chain less
  rcases chain.visited with ⟨b, visited⟩
  have place : p = b * sBlocksize m := visited.numbered sized
  have room : p + sBlocksize m ≤ size := by
    rcases whole with ⟨blocks, rfl⟩
    rw [near, place, Int.ofNat_lt, Nat.mul_comm] at less
    rw [place, ← Nat.succ_mul, Nat.mul_comm]
    exact Nat.mul_le_mul_left _ (Nat.lt_of_mul_lt_mul_left less)
  have inside : ∀ k, HasTag m p k → journalTagAt m p k + journalTagsize m ≤ size := by
    intro k there
    have bound := there.1
    have large := sized.large
    rw [sized.lastTag] at bound
    omega
  have stops : ∃ n, ¬ HasTag m p n := by
    refine ⟨2^29, fun there => ?_⟩
    have few := sized.count there
    omega
  rcases tagCount_of_stops fun _ => stops with ⟨n, count⟩
  have few := sized.product fun k before => (count.1 k before).2
  have positive : 0 < sBlocksize m := Nat.lt_of_lt_of_le (by decide) header
  refine ⟨by omega, n, count, fun k before => inside k (count.1 k before).2, ?_⟩
  rw [Nat.mod_eq_of_lt few.1]
  exact Nat.ne_of_gt (Nat.mul_pos (Nat.succ_pos n) positive)

example : JournalFits smallJournalMemory 256 := by
  have size := smallJournal_numbers.1
  apply journalFits_of_sized smallJournal_sized
  · rw [size]
    decide
  · decide
  · rw [size]
    decide

end Reads

end ImgEditor
